import ScriptEngine.Compiler
import ScriptEngine.Proofs.Code.Layout
import ScriptEngine.Proofs.Syntax
/-!
# What a compilation produces

`Lowers` relates a piece of a syntax tree to the structured code that a compilation without
complaints makes of it. It speaks of names and constants but not of drafts, targets of jumps or
complaints, and it follows an import into the imported file, so that an induction over it covers
everything that ends up in a program.
-/

namespace ScriptEngine

open CompileM (maxWide maxNarrow)

/-! ### Names and constants -/

/-- Whether an operand can hold the slot of a symbol. -/
def Symbol.Fits (sym : Symbol) : Prop :=
  sym.index ≤ if sym.storage = .global then maxWide else maxNarrow

instance (sym : Symbol) : Decidable sym.Fits := inferInstanceAs (Decidable (_ ≤ _))

/-- The instruction that pushes the value of a symbol. -/
def Storage.loadOp : Storage → Opcode
  | .global => .getGlobal
  | .slot => .getLocal
  | .builtin => .getBuiltin
  | .captured => .getFree

/-- Pushes the value of a symbol. -/
def Code.load (pos : Pos) (sym : Symbol) : Code := .instr pos sym.storage.loadOp [sym.index]

/-- The function with some code. -/
def Code.toFunction (c : Code) (id locals parameters : Nat) (variadic : Bool) : Function :=
  { id, locals, parameters, variadic
    code := (bytesOf (c.lines 0 0 0)).toArray
    positions := ({} : PositionTable).mark (c.lines 0 0 0) }

/-- All that a compilation knows apart from code and complaints. -/
structure Stage where
  symbols : SymbolTable
  scope : ScopeId
  constants : Array Value
  functions : Nat
  imported : List (String × Function)

/-- What the code at hand is part of. -/
structure Context where
  kind : BodyKind
  inLoop : Bool
  importing : List String

namespace Stage

/-- A symbol. -/
def symbol (σ : Stage) (id : SymbolId) : Symbol := σ.symbols.symbol id

/-- Looks a name up, which may capture a variable. -/
def resolve (σ : Stage) (name : String) : Option (SymbolId × Nat × Stage) :=
  (σ.symbols.resolve σ.scope name).map fun (id, depth, symbols) => (id, depth, { σ with symbols })

/-- What is known after a name was looked up. -/
def lookedUp (σ : Stage) (name : String) : Stage :=
  match σ.resolve name with
  | some (_, _, σ') => σ'
  | none => σ

/-- Defines a variable in the scope at hand. -/
def define (σ : Stage) (name : String) : SymbolId × Stage :=
  let (id, symbols) := σ.symbols.define σ.scope name
  (id, { σ with symbols })

/-- Records that a variable has got its first value. -/
def markAssigned (σ : Stage) (id : SymbolId) : Stage :=
  { σ with symbols := σ.symbols.markAssigned id }

/-- Adds a constant. -/
def addConstant (σ : Stage) (v : Value) : Stage := { σ with constants := σ.constants.push v }

/-- Hands out a function identity. -/
def addFunction (σ : Stage) : Stage := { σ with functions := σ.functions + 1 }

/-- Enters a new scope inside the one at hand. -/
def enter (σ : Stage) (isBlock : Bool) : Stage :=
  let (scope, symbols) := σ.symbols.fork σ.scope isBlock
  { σ with scope, symbols }

/-- Enters the scope of a module, inside a new root. -/
def enterModule (σ : Stage) : Stage :=
  let (root, symbols) := σ.symbols.newRoot
  let (scope, symbols) := symbols.fork root false
  { σ with scope, symbols }

/-- Returns to a scope. -/
def returnTo (σ : Stage) (scope : ScopeId) : Stage := { σ with scope }

/-- Defines the parameters of a function. -/
def defineAll (σ : Stage) : List Ident → Stage
  | [] => σ
  | param :: rest =>
    let (id, σ) := σ.define param.name
    (σ.markAssigned id).defineAll rest

/-! Code that depends on where a variable lives. The result is none after a complaint. -/

/-- Stores the value on the stack in the variable of a symbol, or in a part of it. -/
def storeIn (σ : Stage) (pos : Pos) (isDefine : Bool) (selectors : Nat) (id : SymbolId) (sym : Symbol) :
    Option (Code × Stage) :=
  match sym.storage, selectors == 0 with
  | .global, true => some (.instr pos .setGlobal [sym.index], σ)
  | .global, false => some (.instr pos .setSelGlobal [sym.index, selectors], σ)
  | .slot, true =>
    some (.instr pos (if isDefine && !sym.assigned then .defineLocal else .setLocal) [sym.index],
      σ.markAssigned id)
  | .slot, false => some (.instr pos .setSelLocal [sym.index, selectors], σ.markAssigned id)
  | .captured, true => some (.instr pos .setFree [sym.index], σ)
  | .captured, false => some (.instr pos .setSelFree [sym.index, selectors], σ)
  | .builtin, _ => none

/-- Stores the value on the stack in a variable, or in a part of it. -/
def store (σ : Stage) (pos : Pos) (isDefine : Bool) (selectors : Nat) (id : SymbolId) :
    Option (Code × Stage) :=
  if (σ.symbol id).Fits then σ.storeIn pos isDefine selectors id (σ.symbol id) else none

/-- Gives the variable of a loop its next value. -/
def bind (σ : Stage) (pos : Pos) (id : SymbolId) : Option (Code × Stage) :=
  let sym := σ.symbol id
  if sym.Fits then
    if sym.storage = .global then some (.instr pos .setGlobal [sym.index], σ)
    else some (.instr pos .defineLocal [sym.index], σ.markAssigned id)
  else none

/-- Binds a name to what an iterator stands at, unless the name is a blank. -/
def bindItem (σ : Stage) (pos : Pos) (it : SymbolId) (op : Opcode) (x : Ident) :
    Option (Code × Stage) :=
  if x.name ≠ "_" then
    let (id, σ) := σ.define x.name
    if (σ.symbol it).Fits then
      (σ.bind x.pos id).map fun (c, σ') =>
        ((Code.load pos (σ.symbol it)).seq ((Code.instr pos op []).seq c), σ')
    else none
  else some (.nop, σ)

/-- Binds the names of a loop over items. -/
def bindItems (σ : Stage) (pos : Pos) (it : SymbolId) (key : Ident) :
    Option Ident → Option (Code × Stage)
  | none => σ.bindItem pos it .iterValue key
  | some value => do
    let (a, σ) ← σ.bindItem pos it .iterKey key
    let (b, σ) ← σ.bindItem pos it .iterValue value
    return (a.seq b, σ)

/-- Captures the variable of a symbol. -/
def captureIn (σ : Stage) (pos : Pos) (id : SymbolId) (sym : Symbol) : Code × Stage :=
  match sym.storage with
  | .slot =>
    if sym.assigned then (.instr pos .captureLocal [sym.index], σ)
    else
      ((Code.instr pos .pushUndefined []).seq ((Code.instr pos .defineLocal [sym.index]).seq
        (.instr pos .captureLocal [sym.index])), σ.markAssigned id)
  | .captured => (.instr pos .captureFree [sym.index], σ)
  | .global | .builtin => (.nop, σ)

/-- Captures a variable for a new function. -/
def capture (σ : Stage) (pos : Pos) (id : SymbolId) : Option (Code × Stage) :=
  if (σ.symbol id).Fits then some (σ.captureIn pos id (σ.symbol id)) else none

/-- Captures variables in turn. -/
def captureAll (σ : Stage) (pos : Pos) : List SymbolId → Option (Code × Stage)
  | [] => some (.nop, σ)
  | id :: rest => do
    let (a, σ) ← σ.capture pos id
    let (b, σ) ← σ.captureAll pos rest
    return (a.seq b, σ)

end Stage

/-! ### Syntax -/

/-- The constant that a literal stands for. -/
def Expr.literal? : Expr → Option (Pos × Value)
  | .int pos v => some (pos, .int v)
  | .float pos v => some (pos, .float v)
  | .char pos c => some (pos, .char c)
  | .str pos s => some (pos, .string s)
  | _ => none

/-- The instruction of a binary operator that has one. -/
def BinaryOp.instruction? : BinaryOp → Option (Opcode × List Nat)
  | .arith op => some (.binary, [op.code])
  | .equal => some (.equal, [])
  | .notEqual => some (.notEqual, [])
  | .logicalAnd | .logicalOr => none

/-- The jump of a logical operator. -/
def BinaryOp.branch? : BinaryOp → Option Branch
  | .logicalAnd => some .logicalAnd
  | .logicalOr => some .logicalOr
  | _ => none

/-- The instruction of a unary operator that has one. -/
def UnaryOp.instruction? : UnaryOp → Option Opcode
  | .negate => some .negate
  | .logicalNot => some .logicalNot
  | .complement => some .complement
  | .plus => none

/-- A piece of a syntax tree. -/
inductive Phrase where
  | expr (e : Expr)
  | exprs (es : List Expr)
  | entries (es : List MapEntry)
  /-- A bound of a slice at a position. -/
  | bound (pos : Pos) (e : Option Expr)
  /-- The selectors of an assignable expression, the last one first. -/
  | selectors (e : Expr)
  | stmt (s : Stmt)
  | optional (s : Option Stmt)
  /-- The condition of a loop. -/
  | condition (e : Option Expr)
  | stmts (ss : List Stmt)
  | block (b : Block)

/-- The code of a function body, which returns at its end. -/
def Code.closing (c : Code) (pos : Pos) (leaves : Bool) : Code :=
  if leaves then c else c.seq (.instr pos .ret [0])

/-- The number of the scope that is opened next. -/
def Stage.newScope (σ : Stage) : ScopeId := σ.symbols.scopes.size

/-- The variables that the function of a scope captures. -/
def Stage.capturesOf (σ : Stage) (scope : ScopeId) : List SymbolId := (σ.symbols.scope scope).captures.toList

/-- The function that a body in a scope became. -/
def Stage.functionOf (σ : Stage) (scope : ScopeId) (c : Code) (parameters : Nat) (variadic : Bool) :
    Function :=
  c.toFunction σ.functions (σ.symbols.slots scope) parameters variadic

/-- Makes a function value from a constant and captured variables. -/
def Code.makeFunction (capturing : Code) (pos : Pos) (index captures : Nat) : Code :=
  if captures = 0 then .instr pos .const [index]
  else capturing.seq (.instr pos .closure [index, captures])

/-! ### The relation -/

/-- A piece of a syntax tree, compiled without complaints in a context, takes what is known from one
stage to another and makes code. -/
inductive Lowers (o : CompileOptions) : Context → Phrase → Stage → Code → Stage → Prop where
  | ident (hresolve : σ.resolve name = some (x, depth, σ1)) (hfits : (σ1.symbol x).Fits) :
    Lowers o ctx (.expr (.ident pos name)) σ (.load pos (σ1.symbol x)) σ1
  | literal {v : Value} (hliteral : e.literal? = some (pos, v)) (hroom : σ.constants.size ≤ maxWide) :
    Lowers o ctx (.expr e) σ (.instr pos .const [σ.constants.size]) (σ.addConstant v)
  | bool {value : Bool} :
    Lowers o ctx (.expr (.bool pos value)) σ (.instr pos (if value then .pushTrue else .pushFalse) []) σ
  | undefined : Lowers o ctx (.expr (.undefined pos)) σ (.instr pos .pushUndefined []) σ
  | array {items : List Expr} (hitems : Lowers o ctx (.exprs items) σ a σ1)
      (hcount : items.length ≤ maxWide) :
    Lowers o ctx (.expr (.array pos items)) σ (a.seq (.instr pos .array [items.length])) σ1
  | map {items : List MapEntry} (hitems : Lowers o ctx (.entries items) σ a σ1)
      (hcount : items.length * 2 ≤ maxWide) :
    Lowers o ctx (.expr (.map pos items)) σ (a.seq (.instr pos .map [items.length * 2])) σ1
  | binary {op : BinaryOp} {opcode : Opcode} {operands : List Nat}
      (hop : op.instruction? = some (opcode, operands)) (hlhs : Lowers o ctx (.expr e1) σ a σ1)
      (hrhs : Lowers o ctx (.expr e2) σ1 b σ2) :
    Lowers o ctx (.expr (.binary pos e1 op e2)) σ (a.seq (b.seq (.instr pos opcode operands))) σ2
  | logical {op : BinaryOp} {branch : Branch} (hop : op.branch? = some branch)
      (hlhs : Lowers o ctx (.expr e1) σ a σ1) (hrhs : Lowers o ctx (.expr e2) σ1 b σ2) :
    Lowers o ctx (.expr (.binary pos e1 op e2)) σ (a.seq (.skip pos branch b)) σ2
  | unary {op : UnaryOp} {opcode : Opcode} (hop : op.instruction? = some opcode)
      (hoperand : Lowers o ctx (.expr e) σ a σ1) :
    Lowers o ctx (.expr (.unary pos op e)) σ (a.seq (.instr pos opcode [])) σ1
  | plus (hoperand : Lowers o ctx (.expr e) σ a σ1) : Lowers o ctx (.expr (.unary pos .plus e)) σ a σ1
  | call {args : List Expr} {spread : Bool} (hcallee : Lowers o ctx (.expr e) σ a σ1)
      (hargs : Lowers o ctx (.exprs args) σ1 b σ2) (hcount : args.length ≤ maxNarrow) :
    Lowers o ctx (.expr (.call pos e args spread)) σ
      (a.seq (b.seq (.instr pos .call [args.length, spread.toNat]))) σ2
  | index (htarget : Lowers o ctx (.expr e1) σ a σ1) (hkey : Lowers o ctx (.expr e2) σ1 b σ2) :
    Lowers o ctx (.expr (.index pos e1 e2)) σ (a.seq (b.seq (.instr pos .index []))) σ2
  | select (htarget : Lowers o ctx (.expr e) σ a σ1) (hroom : σ1.constants.size ≤ maxWide) :
    Lowers o ctx (.expr (.select pos e name)) σ
      (a.seq ((Code.instr pos .const [σ1.constants.size]).seq (.instr pos .index [])))
      (σ1.addConstant (.string name))
  | slice {low high : Option Expr} (htarget : Lowers o ctx (.expr e) σ a σ1)
      (hlow : Lowers o ctx (.bound pos low) σ1 b σ2) (hhigh : Lowers o ctx (.bound pos high) σ2 c σ3) :
    Lowers o ctx (.expr (.slice pos e low high)) σ (a.seq (b.seq (c.seq (.instr pos .slice [])))) σ3
  | cond (hcond : Lowers o ctx (.expr e1) σ a σ1) (hyes : Lowers o ctx (.expr e2) σ1 b σ2)
      (hno : Lowers o ctx (.expr e3) σ2 c σ3) :
    Lowers o ctx (.expr (.cond pos e1 e2 e3)) σ (a.seq (.choose pos b c)) σ3
  | func {params : List Ident} {variadic : Bool} {f : Function} {captures : List SymbolId}
      (hbody : Lowers o ⟨.function, false, ctx.importing⟩ (.block body) ((σ.enter false).defineAll params)
        a σ1)
      (hf : f = σ1.functionOf σ.newScope (a.closing pos (body.leaves .function)) params.length variadic)
      (hcaptures : captures = σ1.capturesOf σ.newScope) (hroom : σ1.constants.size ≤ maxWide)
      (hcapture : (((σ1.returnTo σ.scope).addFunction).addConstant (.function f)).captureAll pos captures =
        some (b, σ2))
      (hcount : captures.length ≤ maxNarrow) :
    Lowers o ctx (.expr (.func pos params variadic body)) σ
      (b.makeFunction pos σ1.constants.size captures.length) σ2
  | error (hvalue : Lowers o ctx (.expr e) σ a σ1) :
    Lowers o ctx (.expr (.error pos e)) σ (a.seq (.instr pos .error [])) σ1
  | immutable (hvalue : Lowers o ctx (.expr e) σ a σ1) :
    Lowers o ctx (.expr (.immutable pos e)) σ (a.seq (.instr pos .freeze [])) σ1
  | importNative {v : Value} (hmodule : o.modules.find? name = some (.native v))
      (hroom : σ.constants.size ≤ maxWide) :
    Lowers o ctx (.expr (.importModule pos name)) σ (.instr pos .const [σ.constants.size])
      (σ.addConstant v)
  | importKnown {file : File} {f : Function} (hmodule : o.modules.find? name = some (.source file))
      (hcycle : name ∉ ctx.importing) (hknown : σ.imported.lookup name = some f)
      (hroom : σ.constants.size ≤ maxWide) :
    Lowers o ctx (.expr (.importModule pos name)) σ
      ((Code.instr pos .const [σ.constants.size]).seq (.instr pos .call [0, 0]))
      (σ.addConstant (.function f))
  | importNew {file : File} {f : Function} (hmodule : o.modules.find? name = some (.source file))
      (hcycle : name ∉ ctx.importing) (hnew : σ.imported.lookup name = none)
      (hbody : Lowers o ⟨.module, false, name :: ctx.importing⟩ (.stmts file.stmts) σ.enterModule a σ1)
      (hf : f = σ1.functionOf σ.enterModule.scope
        (a.closing Pos.unknown (Stmt.anyLeaves .module file.stmts)) 0 false)
      (hroom : σ1.constants.size ≤ maxWide) :
    Lowers o ctx (.expr (.importModule pos name)) σ
      ((Code.instr pos .const [σ1.constants.size]).seq (.instr pos .call [0, 0]))
      ({ (σ1.returnTo σ.scope).addFunction with imported := (name, f) :: σ1.imported }.addConstant
        (.function f))
  | paren (hinner : Lowers o ctx (.expr e) σ a σ1) : Lowers o ctx (.expr (.paren pos e)) σ a σ1
  | exprsNil : Lowers o ctx (.exprs []) σ .nop σ
  | exprsCons {es : List Expr} (hhead : Lowers o ctx (.expr e) σ a σ1)
      (htail : Lowers o ctx (.exprs es) σ1 b σ2) : Lowers o ctx (.exprs (e :: es)) σ (a.seq b) σ2
  | entriesNil : Lowers o ctx (.entries []) σ .nop σ
  | entriesCons {keyPos : Pos} {es : List MapEntry} (hroom : σ.constants.size ≤ maxWide)
      (hhead : Lowers o ctx (.expr e) (σ.addConstant (.string name)) a σ1)
      (htail : Lowers o ctx (.entries es) σ1 b σ2) :
    Lowers o ctx (.entries (.mk name keyPos e :: es)) σ
      ((Code.instr keyPos .const [σ.constants.size]).seq (a.seq b)) σ2
  | boundNone : Lowers o ctx (.bound pos none) σ (.instr pos .pushUndefined []) σ
  | boundSome (hbound : Lowers o ctx (.expr e) σ a σ1) : Lowers o ctx (.bound pos (some e)) σ a σ1
  | selectorsSelect (hroom : σ.constants.size ≤ maxWide)
      (hrest : Lowers o ctx (.selectors e) (σ.addConstant (.string name)) a σ1) :
    Lowers o ctx (.selectors (.select pos e name)) σ
      ((Code.instr pos .const [σ.constants.size]).seq a) σ1
  | selectorsIndex (hkey : Lowers o ctx (.expr e2) σ a σ1)
      (hrest : Lowers o ctx (.selectors e1) σ1 b σ2) :
    Lowers o ctx (.selectors (.index pos e1 e2)) σ (a.seq b) σ2
  | selectorsEnd (hselect : ∀ pos target key, e ≠ .select pos target key)
      (hindex : ∀ pos target key, e ≠ .index pos target key) : Lowers o ctx (.selectors e) σ .nop σ
  | exprStmt (hvalue : Lowers o ctx (.expr e) σ a σ1) :
    Lowers o ctx (.stmt (.expr pos e)) σ (a.seq (.instr pos .pop [])) σ1
  | define (hplace : e1.place? = some (name, 0)) (hnew : ∀ x σ', σ.resolve name ≠ some (x, 0, σ'))
      (hvalue : Lowers o ctx (.expr e2) (σ.lookedUp name) a σ1) (hfunction : e2.isFunction = false)
      (hstore : (σ1.define name).2.store pos true 0 (σ1.define name).1 = some (w, σ2)) :
    Lowers o ctx (.stmt (.assign pos [e1] [e2] .define)) σ (a.seq w) σ2
  | defineFunction (hplace : e1.place? = some (name, 0))
      (hnew : ∀ x σ', σ.resolve name ≠ some (x, 0, σ'))
      (hvalue : Lowers o ctx (.expr e2) ((σ.lookedUp name).define name).2 a σ1)
      (hfunction : e2.isFunction = true)
      (hstore : σ1.store pos true 0 ((σ.lookedUp name).define name).1 = some (w, σ2)) :
    Lowers o ctx (.stmt (.assign pos [e1] [e2] .define)) σ (a.seq w) σ2
  | assign (hplace : e1.place? = some (name, n)) (hresolve : σ.resolve name = some (x, depth, σ1))
      (hvalue : Lowers o ctx (.expr e2) σ1 a σ2) (hselectors : Lowers o ctx (.selectors e1) σ2 b σ3)
      (hstore : σ3.store pos false n x = some (w, σ4)) :
    Lowers o ctx (.stmt (.assign pos [e1] [e2] .assign)) σ (a.seq (b.seq w)) σ4
  | combine {op : Operator} (hplace : e1.place? = some (name, n))
      (hresolve : σ.resolve name = some (x, depth, σ1)) (hread : Lowers o ctx (.expr e1) σ1 c σ2)
      (hvalue : Lowers o ctx (.expr e2) σ2 a σ3) (hselectors : Lowers o ctx (.selectors e1) σ3 b σ4)
      (hstore : σ4.store pos false n x = some (w, σ5)) :
    Lowers o ctx (.stmt (.assign pos [e1] [e2] (.combine op))) σ
      (c.seq (a.seq ((Code.instr pos .binary [op.code]).seq (b.seq w)))) σ5
  | incDec {up : Bool}
      (hassign : Lowers o ctx
        (.stmt (.assign pos [e] [.int pos 1] (.combine (if up then .add else .sub)))) σ a σ1) :
    Lowers o ctx (.stmt (.incDec pos e up)) σ a σ1
  | blockStmt (hbody : Lowers o ctx (.block body) σ a σ1) :
    Lowers o ctx (.stmt (.block pos body)) σ a σ1
  | ifThen {init : Option Stmt} (hinit : Lowers o ctx (.optional init) (σ.enter true) a σ1)
      (hcond : Lowers o ctx (.expr e) σ1 b σ2) (hbody : Lowers o ctx (.block body) σ2 c σ3) :
    Lowers o ctx (.stmt (.ifThen pos init e body none)) σ (a.seq (b.seq (.skip pos .onFalsy c)))
      (σ3.returnTo σ.scope)
  | ifElse {init : Option Stmt} {other : Stmt} (hinit : Lowers o ctx (.optional init) (σ.enter true) a σ1)
      (hcond : Lowers o ctx (.expr e) σ1 b σ2) (hbody : Lowers o ctx (.block body) σ2 c σ3)
      (hother : Lowers o ctx (.stmt other) σ3 d σ4) :
    Lowers o ctx (.stmt (.ifThen pos init e body (some other))) σ (a.seq (b.seq (.choose pos c d)))
      (σ4.returnTo σ.scope)
  | loop {init post : Option Stmt} {condition : Option Expr}
      (hinit : Lowers o ctx (.optional init) (σ.enter true) a σ1)
      (hcond : Lowers o ctx (.condition condition) σ1 b σ2)
      (hbody : Lowers o { ctx with inLoop := true } (.block body) σ2 c σ3)
      (hpost : Lowers o ctx (.optional post) σ3 d σ4) :
    Lowers o ctx (.stmt (.loop pos init condition post body)) σ
      (a.seq (.loop pos b condition.isSome c d)) (σ4.returnTo σ.scope)
  | forIn {key : Ident} {value : Option Ident}
      (hdefine : (σ.enter true).define ":it" = (x, σ1)) (hiterable : Lowers o ctx (.expr e) σ1 a σ2)
      (hbind : σ2.bind pos x = some (b, σ3)) (hfits : (σ3.symbol x).Fits)
      (hitems : σ3.bindItems pos x key value = some (c, σ4))
      (hbody : Lowers o { ctx with inLoop := true } (.block body) σ4 d σ5) :
    Lowers o ctx (.stmt (.forIn pos key value e body)) σ
      (a.seq ((Code.instr pos .iterInit []).seq (b.seq (.loop pos
        ((Code.load pos (σ3.symbol x)).seq (.instr pos .iterNext [])) true (c.seq d) .nop))))
      (σ5.returnTo σ.scope)
  | breakLoop (hloop : ctx.inLoop = true) :
    Lowers o ctx (.stmt (.breakLoop pos)) σ (.leave pos true) σ
  | continueLoop (hloop : ctx.inLoop = true) :
    Lowers o ctx (.stmt (.continueLoop pos)) σ (.leave pos false) σ
  | retValue (hkind : ctx.kind ≠ .main) (hvalue : Lowers o ctx (.expr e) σ a σ1) :
    Lowers o ctx (.stmt (.ret pos (some e))) σ (a.seq (.instr pos .ret [1])) σ1
  | ret (hkind : ctx.kind ≠ .main) : Lowers o ctx (.stmt (.ret pos none)) σ (.instr pos .ret [0]) σ
  | exportMain (hkind : ctx.kind = .main) : Lowers o ctx (.stmt (.exportValue pos e)) σ .nop σ
  | exportModule (hkind : ctx.kind = .module) (hvalue : Lowers o ctx (.expr e) σ a σ1) :
    Lowers o ctx (.stmt (.exportValue pos e)) σ
      (a.seq ((Code.instr pos .freeze []).seq (.instr pos .ret [1]))) σ1
  | empty : Lowers o ctx (.stmt (.empty pos)) σ .nop σ
  | optionalNone : Lowers o ctx (.optional none) σ .nop σ
  | optionalSome {s : Stmt} (hstmt : Lowers o ctx (.stmt s) σ a σ1) :
    Lowers o ctx (.optional (some s)) σ a σ1
  | conditionNone : Lowers o ctx (.condition none) σ .nop σ
  | conditionSome (hcond : Lowers o ctx (.expr e) σ a σ1) : Lowers o ctx (.condition (some e)) σ a σ1
  | stmtsNil : Lowers o ctx (.stmts []) σ .nop σ
  | stmtsLast {s : Stmt} {rest : List Stmt} (hleaves : s.leaves ctx.kind = true)
      (hstmt : Lowers o ctx (.stmt s) σ a σ1) : Lowers o ctx (.stmts (s :: rest)) σ a σ1
  | stmtsCons {s : Stmt} {rest : List Stmt} (hleaves : s.leaves ctx.kind = false)
      (hstmt : Lowers o ctx (.stmt s) σ a σ1) (hrest : Lowers o ctx (.stmts rest) σ1 b σ2) :
    Lowers o ctx (.stmts (s :: rest)) σ (a.seq b) σ2
  | blockNil : Lowers o ctx (.block (.mk pos [])) σ .nop σ
  | block {ss : List Stmt} (hne : ss ≠ []) (hbody : Lowers o ctx (.stmts ss) (σ.enter true) a σ1) :
    Lowers o ctx (.block (.mk pos ss)) σ a (σ1.returnTo σ.scope)

end ScriptEngine
