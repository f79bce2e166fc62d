import ScriptEngine.Ast
import ScriptEngine.Document
/-!
# The exchange form of syntax trees

A tree as a document, for programs that produce or inspect trees. A node is a record of its kind
and its position; a kind with parts is a record with the one field that is named for it, a kind
without parts is its name alone. Reading gives back what was written, as long as every float is
finite.
-/

namespace ScriptEngine

/-! ### Names of operators -/

def Operator.exchangeName : Operator → String
  | .add => "Add"
  | .sub => "Sub"
  | .mul => "Mul"
  | .quo => "Quo"
  | .rem => "Rem"
  | .and => "And"
  | .or => "Or"
  | .xor => "Xor"
  | .shl => "Shl"
  | .shr => "Shr"
  | .andNot => "AndNot"
  | .less => "Less"
  | .greater => "Greater"
  | .lessEq => "LessEq"
  | .greaterEq => "GreaterEq"

def BinaryOp.exchangeName : BinaryOp → String
  | .arith op => op.exchangeName
  | .logicalAnd => "LAnd"
  | .logicalOr => "LOr"
  | .equal => "Equal"
  | .notEqual => "NotEqual"

def UnaryOp.exchangeName : UnaryOp → String
  | .negate => "Neg"
  | .logicalNot => "Not"
  | .complement => "BitNot"
  | .plus => "Plus"

def AssignOp.exchangeName : AssignOp → String
  | .define => "Define"
  | .assign => "Assign"
  | .combine op => op.exchangeName

/-! ### Writing -/

namespace Exchange

def node (kind : Document) (pos : Pos) : Document :=
  .record [("kind", kind), ("pos", .integer pos)]

def kindOf (name : String) (part : Document) : Document := .record [(name, part)]

def ofIdent (x : Ident) : Document :=
  .record [("name", .text x.name), ("pos", .integer x.pos)]

mutual

def ofExpr : Expr → Document
  | .ident pos name => node (kindOf "Ident" (.text name)) pos
  | .int pos v => node (kindOf "Int" (.integer v.toInt)) pos
  | .float pos v => node (kindOf "Float" (.float v)) pos
  | .char pos c => node (kindOf "Char" (.text (String.singleton c))) pos
  | .str pos s => node (kindOf "Str" (.text s)) pos
  | .bool pos b => node (kindOf "Bool" (.bool b)) pos
  | .undefined pos => node (.text "Undefined") pos
  | .array pos items => node (kindOf "Array" (.list (ofExprs items))) pos
  | .map pos entries => node (kindOf "Map" (.list (ofEntries entries))) pos
  | .binary pos lhs op rhs =>
    node (kindOf "Binary" (.record
      [("lhs", ofExpr lhs), ("op", .text op.exchangeName), ("rhs", ofExpr rhs)])) pos
  | .unary pos op operand =>
    node (kindOf "Unary" (.record [("op", .text op.exchangeName), ("expr", ofExpr operand)])) pos
  | .call pos callee args spread =>
    node (kindOf "Call" (.record
      [("func", ofExpr callee), ("args", .list (ofExprs args)), ("spread", .bool spread)])) pos
  | .index pos target key =>
    node (kindOf "Index" (.record [("expr", ofExpr target), ("index", ofExpr key)])) pos
  | .select pos target key =>
    node (kindOf "Selector" (.record [("expr", ofExpr target), ("sel", .text key)])) pos
  | .slice pos target low high =>
    node (kindOf "Slice" (.record
      [("expr", ofExpr target), ("low", ofExpr? low), ("high", ofExpr? high)])) pos
  | .cond pos c a b =>
    node (kindOf "Cond" (.record
      [("cond", ofExpr c), ("then_expr", ofExpr a), ("else_expr", ofExpr b)])) pos
  | .func pos params variadic body =>
    node (kindOf "Func" (.record
      [("params", .list (params.map ofIdent)), ("var_args", .bool variadic),
        ("body", ofBlock body)])) pos
  | .error pos value => node (kindOf "Error" (ofExpr value)) pos
  | .immutable pos value => node (kindOf "Immutable" (ofExpr value)) pos
  | .importModule pos name => node (kindOf "Import" (.text name)) pos
  | .paren pos inner => node (kindOf "Paren" (ofExpr inner)) pos
  | .bad pos message => node (kindOf "Bad" (.text message)) pos

def ofExprs : List Expr → List Document
  | [] => []
  | e :: rest => ofExpr e :: ofExprs rest

def ofExpr? : Option Expr → Document
  | none => .null
  | some e => ofExpr e

def ofEntry : MapEntry → Document
  | .mk key keyPos value =>
    .record [("key", .text key), ("key_pos", .integer keyPos), ("value", ofExpr value)]

def ofEntries : List MapEntry → List Document
  | [] => []
  | e :: rest => ofEntry e :: ofEntries rest

def ofStmt : Stmt → Document
  | .expr pos e => node (kindOf "Expr" (ofExpr e)) pos
  | .assign pos targets values op =>
    node (kindOf "Assign" (.record
      [("lhs", .list (ofExprs targets)), ("rhs", .list (ofExprs values)),
        ("op", .text op.exchangeName)])) pos
  | .incDec pos target up =>
    node (kindOf "IncDec" (.record [("expr", ofExpr target), ("inc", .bool up)])) pos
  | .block pos body => node (kindOf "Block" (ofBlock body)) pos
  | .ifThen pos init cond body otherwise =>
    node (kindOf "If" (.record
      [("init", ofStmt? init), ("cond", ofExpr cond), ("body", ofBlock body),
        ("else_stmt", ofStmt? otherwise)])) pos
  | .loop pos init cond post body =>
    node (kindOf "For" (.record
      [("init", ofStmt? init), ("cond", ofExpr? cond), ("post", ofStmt? post),
        ("body", ofBlock body)])) pos
  | .forIn pos key value iterable body =>
    node (kindOf "ForIn" (.record
      [("key", ofIdent key), ("value", (value.map ofIdent).getD .null),
        ("iterable", ofExpr iterable), ("body", ofBlock body)])) pos
  | .breakLoop pos => node (.text "Break") pos
  | .continueLoop pos => node (.text "Continue") pos
  | .ret pos value => node (kindOf "Return" (ofExpr? value)) pos
  | .exportValue pos value => node (kindOf "Export" (ofExpr value)) pos
  | .empty pos => node (.text "Empty") pos
  | .bad pos message => node (kindOf "Bad" (.text message)) pos

def ofStmts : List Stmt → List Document
  | [] => []
  | s :: rest => ofStmt s :: ofStmts rest

def ofStmt? : Option Stmt → Document
  | none => .null
  | some s => ofStmt s

def ofBlock : Block → Document
  | .mk pos stmts => .record [("stmts", .list (ofStmts stmts)), ("pos", .integer pos)]

end

/-! ### Reading -/

def named? (nameOf : α → String) (all : List α) : Document → Option α
  | .text name => all.find? (nameOf · == name)
  | _ => none

def readPos : Document → Option Pos
  | .integer n => if 0 ≤ n then some n.toNat else none
  | _ => none

def readText : Document → Option String
  | .text s => some s
  | _ => none

def readBool : Document → Option Bool
  | .bool b => some b
  | _ => none

def readList (item : Document → Option α) : Document → Option (List α)
  | .list items => items.mapM item
  | _ => none

def readOption (item : Document → Option α) : Document → Option (Option α)
  | .null => some none
  | d => (item d).map some

def readIdent (d : Document) : Option Ident := do
  some { name := ← readText (← d.field? "name"), pos := ← readPos (← d.field? "pos") }

def readInt64 : Document → Option Int64
  | .integer n =>
    if Int64.minValue.toInt ≤ n ∧ n ≤ Int64.maxValue.toInt then some (Int64.ofInt n) else none
  | _ => none

def readFloat : Document → Option Float
  | .float v => some v
  | .integer n => some (Float.ofInt n)
  | _ => none

/-- A character, given as a text of one. -/
def readChar : Document → Option Char
  | .text s =>
    match s.toList with
    | [c] => some c
    | _ => none
  | _ => none

mutual

/-- An expression read from a document whose nodes are nested at most `depth` deep. -/
def readExpr : (depth : Nat) → Document → Option Expr
  | 0, _ => none
  | depth + 1, d => do
    let pos ← readPos (← d.field? "pos")
    let (name, part) ← (← d.field? "kind").variant?
    match name with
    | "Ident" => return .ident pos (← readText part)
    | "Int" => return .int pos (← readInt64 part)
    | "Float" => return .float pos (← readFloat part)
    | "Char" => return .char pos (← readChar part)
    | "Str" => return .str pos (← readText part)
    | "Bool" => return .bool pos (← readBool part)
    | "Undefined" => return .undefined pos
    | "Array" => return .array pos (← readList (readExpr depth) part)
    | "Map" => return .map pos (← readList (readEntry depth) part)
    | "Binary" =>
      return .binary pos (← readExpr depth (← part.field? "lhs"))
        (← named? BinaryOp.exchangeName BinaryOp.all (← part.field? "op"))
        (← readExpr depth (← part.field? "rhs"))
    | "Unary" =>
      return .unary pos (← named? UnaryOp.exchangeName UnaryOp.all (← part.field? "op"))
        (← readExpr depth (← part.field? "expr"))
    | "Call" =>
      return .call pos (← readExpr depth (← part.field? "func"))
        (← readList (readExpr depth) (← part.field? "args")) (← readBool (← part.field? "spread"))
    | "Index" =>
      return .index pos (← readExpr depth (← part.field? "expr"))
        (← readExpr depth (← part.field? "index"))
    | "Selector" =>
      return .select pos (← readExpr depth (← part.field? "expr")) (← readText (← part.field? "sel"))
    | "Slice" =>
      return .slice pos (← readExpr depth (← part.field? "expr"))
        (← readOption (readExpr depth) (← part.field? "low"))
        (← readOption (readExpr depth) (← part.field? "high"))
    | "Cond" =>
      return .cond pos (← readExpr depth (← part.field? "cond"))
        (← readExpr depth (← part.field? "then_expr")) (← readExpr depth (← part.field? "else_expr"))
    | "Func" =>
      return .func pos (← readList readIdent (← part.field? "params"))
        (← readBool (← part.field? "var_args")) (← readBlock depth (← part.field? "body"))
    | "Error" => return .error pos (← readExpr depth part)
    | "Immutable" => return .immutable pos (← readExpr depth part)
    | "Import" => return .importModule pos (← readText part)
    | "Paren" => return .paren pos (← readExpr depth part)
    | "Bad" => return .bad pos (← readText part)
    | _ => none

def readEntry : (depth : Nat) → Document → Option MapEntry
  | 0, _ => none
  | depth + 1, d => do
    return .mk (← readText (← d.field? "key")) (← readPos (← d.field? "key_pos"))
      (← readExpr depth (← d.field? "value"))

def readStmt : (depth : Nat) → Document → Option Stmt
  | 0, _ => none
  | depth + 1, d => do
    let pos ← readPos (← d.field? "pos")
    let (name, part) ← (← d.field? "kind").variant?
    match name with
    | "Expr" => return .expr pos (← readExpr depth part)
    | "Assign" =>
      return .assign pos (← readList (readExpr depth) (← part.field? "lhs"))
        (← readList (readExpr depth) (← part.field? "rhs"))
        (← named? AssignOp.exchangeName AssignOp.all (← part.field? "op"))
    | "IncDec" =>
      return .incDec pos (← readExpr depth (← part.field? "expr")) (← readBool (← part.field? "inc"))
    | "Block" => return .block pos (← readBlock depth part)
    | "If" =>
      return .ifThen pos (← readOption (readStmt depth) (← part.field? "init"))
        (← readExpr depth (← part.field? "cond")) (← readBlock depth (← part.field? "body"))
        (← readOption (readStmt depth) (← part.field? "else_stmt"))
    | "For" =>
      return .loop pos (← readOption (readStmt depth) (← part.field? "init"))
        (← readOption (readExpr depth) (← part.field? "cond"))
        (← readOption (readStmt depth) (← part.field? "post"))
        (← readBlock depth (← part.field? "body"))
    | "ForIn" =>
      return .forIn pos (← readIdent (← part.field? "key"))
        (← readOption readIdent (← part.field? "value"))
        (← readExpr depth (← part.field? "iterable")) (← readBlock depth (← part.field? "body"))
    | "Break" => return .breakLoop pos
    | "Continue" => return .continueLoop pos
    | "Return" => return .ret pos (← readOption (readExpr depth) part)
    | "Export" => return .exportValue pos (← readExpr depth part)
    | "Empty" => return .empty pos
    | "Bad" => return .bad pos (← readText part)
    | _ => none

def readBlock : (depth : Nat) → Document → Option Block
  | 0, _ => none
  | depth + 1, d => do
    return .mk (← readPos (← d.field? "pos")) (← readList (readStmt depth) (← d.field? "stmts"))

end

end Exchange

def File.toDocument (f : File) : Document :=
  .record [("name", .text f.name), ("stmts", .list (Exchange.ofStmts f.stmts))]

def File.ofDocument? (d : Document) : Option File := do
  return {
    name := ← Exchange.readText (← d.field? "name")
    stmts := ← Exchange.readList (Exchange.readStmt d.depth) (← d.field? "stmts") }

/-- Whether writing the file and reading it back gives the same file. -/
def File.isExchangeable (f : File) : Bool :=
  match File.ofDocument? f.toDocument with
  | some g => g.toDocument.same f.toDocument
  | none => false

end ScriptEngine
