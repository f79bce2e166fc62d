import ScriptEngine.Operator
import ScriptEngine.Source
/-!
# Syntax trees

The programs that are compiled. Every expression and statement carries the position of its first
token, from which the positions of instructions and diagnostics come.
-/

namespace ScriptEngine

structure Ident where
  name : String
  pos : Pos := Pos.unknown
  deriving Repr, DecidableEq, Inhabited

/-- A binary operator as it is written, with the logical ones and equality. -/
inductive BinaryOp where
  | arith (op : Operator)
  | logicalAnd
  | logicalOr
  | equal
  | notEqual
  deriving Repr, DecidableEq, Inhabited

inductive UnaryOp where
  | negate
  | logicalNot
  | complement
  | plus
  deriving Repr, DecidableEq, Inhabited

/-- An assignment: a definition, a plain assignment, or one that combines the old value and the new
one. -/
inductive AssignOp where
  | define
  | assign
  | combine (op : Operator)
  deriving Repr, DecidableEq, Inhabited

def AssignOp.operator? : AssignOp → Option Operator
  | .combine op => some op
  | _ => none

mutual

inductive Expr where
  | ident (pos : Pos) (name : String)
  | int (pos : Pos) (v : Int64)
  | float (pos : Pos) (v : Float)
  | char (pos : Pos) (c : Char)
  | str (pos : Pos) (s : String)
  | bool (pos : Pos) (b : Bool)
  | undefined (pos : Pos)
  | array (pos : Pos) (items : List Expr)
  | map (pos : Pos) (entries : List MapEntry)
  | binary (pos : Pos) (lhs : Expr) (op : BinaryOp) (rhs : Expr)
  | unary (pos : Pos) (op : UnaryOp) (operand : Expr)
  | call (pos : Pos) (callee : Expr) (args : List Expr) (spread : Bool)
  | index (pos : Pos) (target index : Expr)
  | select (pos : Pos) (target : Expr) (key : String)
  | slice (pos : Pos) (target : Expr) (low high : Option Expr)
  | cond (pos : Pos) (cond thenValue elseValue : Expr)
  | func (pos : Pos) (params : List Ident) (variadic : Bool) (body : Block)
  | error (pos : Pos) (value : Expr)
  | immutable (pos : Pos) (value : Expr)
  | importModule (pos : Pos) (name : String)
  | paren (pos : Pos) (inner : Expr)
  /-- An expression that could not be read. -/
  | bad (pos : Pos) (message : String)

inductive MapEntry where
  | mk (key : String) (keyPos : Pos) (value : Expr)

inductive Stmt where
  | expr (pos : Pos) (e : Expr)
  | assign (pos : Pos) (targets values : List Expr) (op : AssignOp)
  /-- One more (`up`) or one less. -/
  | incDec (pos : Pos) (target : Expr) (up : Bool)
  | block (pos : Pos) (body : Block)
  | ifThen (pos : Pos) (init : Option Stmt) (cond : Expr) (body : Block) (otherwise : Option Stmt)
  | loop (pos : Pos) (init : Option Stmt) (cond : Option Expr) (post : Option Stmt) (body : Block)
  /-- With one name, it is bound to the items; with two, the first one is bound to the keys. -/
  | forIn (pos : Pos) (key : Ident) (value : Option Ident) (iterable : Expr) (body : Block)
  | breakLoop (pos : Pos)
  | continueLoop (pos : Pos)
  | ret (pos : Pos) (value : Option Expr)
  | exportValue (pos : Pos) (value : Expr)
  | empty (pos : Pos)
  /-- A statement that could not be read. -/
  | bad (pos : Pos) (message : String)

inductive Block where
  | mk (pos : Pos) (stmts : List Stmt)

end

/-- A file: the main program or a module. -/
structure File where
  name : String
  stmts : List Stmt

instance : Inhabited Expr := ⟨.undefined Pos.unknown⟩
instance : Inhabited Stmt := ⟨.empty Pos.unknown⟩
instance : Inhabited Block := ⟨.mk Pos.unknown []⟩
instance : Inhabited File := ⟨⟨"", []⟩⟩

def Block.stmts : Block → List Stmt
  | .mk _ stmts => stmts

def Expr.pos : Expr → Pos
  | .ident pos _ | .int pos _ | .float pos _ | .char pos _ | .str pos _ | .bool pos _
  | .undefined pos | .array pos _ | .map pos _ | .binary pos _ _ _ | .unary pos _ _
  | .call pos _ _ _ | .index pos _ _ | .select pos _ _ | .slice pos _ _ _ | .cond pos _ _ _
  | .func pos _ _ _ | .error pos _ | .immutable pos _ | .importModule pos _ | .paren pos _
  | .bad pos _ => pos

def Expr.at (pos : Pos) : Expr → Expr
  | .ident _ name => .ident pos name
  | .int _ v => .int pos v
  | .float _ v => .float pos v
  | .char _ c => .char pos c
  | .str _ s => .str pos s
  | .bool _ b => .bool pos b
  | .undefined _ => .undefined pos
  | .array _ items => .array pos items
  | .map _ entries => .map pos entries
  | .binary _ lhs op rhs => .binary pos lhs op rhs
  | .unary _ op operand => .unary pos op operand
  | .call _ callee args spread => .call pos callee args spread
  | .index _ target key => .index pos target key
  | .select _ target key => .select pos target key
  | .slice _ target low high => .slice pos target low high
  | .cond _ c a b => .cond pos c a b
  | .func _ params variadic body => .func pos params variadic body
  | .error _ value => .error pos value
  | .immutable _ value => .immutable pos value
  | .importModule _ name => .importModule pos name
  | .paren _ inner => .paren pos inner
  | .bad _ message => .bad pos message

def Stmt.pos : Stmt → Pos
  | .expr pos _ | .assign pos _ _ _ | .incDec pos _ _ | .block pos _ | .ifThen pos _ _ _ _
  | .loop pos _ _ _ _ | .forIn pos _ _ _ _ | .breakLoop pos | .continueLoop pos | .ret pos _
  | .exportValue pos _ | .empty pos | .bad pos _ => pos

def Stmt.at (pos : Pos) : Stmt → Stmt
  | .expr _ e => .expr pos e
  | .assign _ targets values op => .assign pos targets values op
  | .incDec _ target up => .incDec pos target up
  | .block _ body => .block pos body
  | .ifThen _ init cond body otherwise => .ifThen pos init cond body otherwise
  | .loop _ init cond post body => .loop pos init cond post body
  | .forIn _ key value iterable body => .forIn pos key value iterable body
  | .breakLoop _ => .breakLoop pos
  | .continueLoop _ => .continueLoop pos
  | .ret _ value => .ret pos value
  | .exportValue _ value => .exportValue pos value
  | .empty _ => .empty pos
  | .bad _ message => .bad pos message

def Stmt.isTerminal : Stmt → Bool
  | .ret _ _ | .breakLoop _ | .continueLoop _ => true
  | _ => false

/-! ### Building trees

A node that starts with one of its parts takes that part's position; any other node is at no
position until `at` gives it one. -/

namespace Expr

def name (name : String) : Expr := .ident Pos.unknown name

def binaryOf (lhs : Expr) (op : BinaryOp) (rhs : Expr) : Expr := .binary lhs.pos lhs op rhs

def callOf (callee : Expr) (args : List Expr) (spread : Bool) : Expr :=
  .call callee.pos callee args spread

def indexOf (target index : Expr) : Expr := .index target.pos target index

def selectOf (target : Expr) (key : String) : Expr := .select target.pos target key

def sliceOf (target : Expr) (low high : Option Expr) : Expr := .slice target.pos target low high

def condOf (cond thenValue elseValue : Expr) : Expr := .cond cond.pos cond thenValue elseValue

def funcOf (params : List Ident) (variadic : Bool) (body : List Stmt) : Expr :=
  .func Pos.unknown params variadic (.mk Pos.unknown body)

def parenOf (inner : Expr) : Expr := .paren inner.pos inner

end Expr

namespace Stmt

def exprOf (e : Expr) : Stmt := .expr e.pos e

def assignOf (target : Expr) (op : AssignOp) (value : Expr) : Stmt :=
  .assign target.pos [target] [value] op

def incDecOf (target : Expr) (up : Bool) : Stmt := .incDec target.pos target up

def blockOf (stmts : List Stmt) : Stmt := .block Pos.unknown (.mk Pos.unknown stmts)

def ifOf (init : Option Stmt) (cond : Expr) (body : List Stmt) (otherwise : Option Stmt) : Stmt :=
  .ifThen Pos.unknown init cond (.mk Pos.unknown body) otherwise

def loopOf (init : Option Stmt) (cond : Option Expr) (post : Option Stmt) (body : List Stmt) : Stmt :=
  .loop Pos.unknown init cond post (.mk Pos.unknown body)

def forInOf (key : Ident) (value : Option Ident) (iterable : Expr) (body : List Stmt) : Stmt :=
  .forIn Pos.unknown key value iterable (.mk Pos.unknown body)

end Stmt

/-! ### How operators are written -/

def BinaryOp.symbol : BinaryOp → String
  | .arith op => op.symbol
  | .logicalAnd => "&&"
  | .logicalOr => "||"
  | .equal => "=="
  | .notEqual => "!="

def BinaryOp.all : List BinaryOp :=
  Operator.all.toList.map .arith ++ [.logicalAnd, .logicalOr, .equal, .notEqual]

def BinaryOp.ofSymbol? (symbol : String) : Option BinaryOp := all.find? (·.symbol == symbol)

def UnaryOp.symbol : UnaryOp → String
  | .negate => "-"
  | .logicalNot => "!"
  | .complement => "^"
  | .plus => "+"

def UnaryOp.all : List UnaryOp := [.negate, .logicalNot, .complement, .plus]

def UnaryOp.ofSymbol? (symbol : String) : Option UnaryOp := all.find? (·.symbol == symbol)

def AssignOp.symbol : AssignOp → String
  | .define => ":="
  | .assign => "="
  | .combine op => op.symbol ++ "="

/-- The assignments: an operator that compares cannot combine. -/
def AssignOp.all : List AssignOp :=
  [.define, .assign] ++ (Operator.all.toList.filter (!·.isComparison)).map .combine

def AssignOp.ofSymbol? (symbol : String) : Option AssignOp := all.find? (·.symbol == symbol)

end ScriptEngine
