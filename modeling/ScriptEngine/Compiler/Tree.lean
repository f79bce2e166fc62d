import ScriptEngine.Compiler.State
/-!
# Compiling syntax trees

One pass over the tree. The code of an expression leaves its value on the stack, the code of a
statement leaves the stack as it was. Compiling statements says whether the code always leaves the
block; what follows such a statement is not compiled.
-/

namespace ScriptEngine

open CompileM

/-- The variable at the root of an assignable expression, and how many selectors follow it. -/
def Expr.place? : Expr → Option (String × Nat)
  | .ident _ name => some (name, 0)
  | .select _ target _ => target.place?.map fun p => (p.1, p.2 + 1)
  | .index _ target _ => target.place?.map fun p => (p.1, p.2 + 1)
  | _ => none

def Expr.isFunction : Expr → Bool
  | .func .. => true
  | _ => false

namespace CompileM

/-- Stores the value on the stack in a variable, or in a part of it that the selectors on the stack
lead to. -/
def store (pos : Pos) (isDefine : Bool) (selectors : Nat) (id : SymbolId) : CompileM Unit := do
  let sym ← symbol id
  let index ← slot pos sym
  match sym.storage, selectors == 0 with
  | .global, true => emit pos .setGlobal [index]
  | .global, false => emit pos .setSelGlobal [index, selectors]
  | .slot, true =>
    emit pos (if isDefine && !sym.assigned then .defineLocal else .setLocal) [index]
    markAssigned id
  | .slot, false =>
    emit pos .setSelLocal [index, selectors]
    markAssigned id
  | .captured, true => emit pos .setFree [index]
  | .captured, false => emit pos .setSelFree [index, selectors]
  | .builtin, _ => complain pos (.assignToBuiltin sym.name)

/-- The target of an assignment that is compiled elsewhere. -/
structure Target where
  pos : Pos
  place : Option (String × Nat)
  /-- Pushes the value that the target has. -/
  read : CompileM Unit
  /-- Pushes the selectors, the last one first. -/
  selectors : CompileM Unit

/-- The symbol that an assignment goes to, when it is known before the value is computed. A function
is defined before its body, so that it can call itself. The result is none after a complaint. -/
def targetSymbol (pos : Pos) (target : Target) (name : String) (isDefine isFunction : Bool) :
    CompileM (Option (Option SymbolId)) := do
  match ← resolve name, isDefine with
  | some (_, 0), true =>
    complain pos (.redeclared name)
    return none
  | _, true => if isFunction then return some (some (← define name)) else return some none
  | some (id, _), false => return some (some id)
  | none, false =>
    complain target.pos (.unresolved name)
    return none

def assign (pos : Pos) (target : Target) (op : AssignOp) (isFunction : Bool) (value : CompileM Unit) :
    CompileM Unit := do
  match target.place with
  | none => complain target.pos .notAssignable
  | some (name, selectors) =>
    let isDefine := op = .define
    if isDefine ∧ 0 < selectors then complain pos .defineWithSelector
    else
      match ← targetSymbol pos target name isDefine isFunction with
      | none => return
      | some known =>
        if op.operator?.isSome then target.read
        value
        let id ←
          match known with
          | some id => pure id
          | none => define name
        match op.operator? with
        | some operator => emit pos .binary [operator.code]
        | none => pure ()
        target.selectors
        store pos isDefine selectors id

/-- Captures the variables of a new function, which is the constant `index`. A variable that has no
value yet gets one, so that there is something to capture. -/
def capture (pos : Pos) (id : SymbolId) : CompileM Unit := do
  let sym ← symbol id
  let index ← slot pos sym
  match sym.storage with
  | .slot =>
    if !sym.assigned then
      emit pos .pushUndefined
      emit pos .defineLocal [index]
      markAssigned id
    emit pos .captureLocal [index]
  | .captured => emit pos .captureFree [index]
  | .global | .builtin => pure ()

def functionLiteral (pos : Pos) (params : List Ident) (variadic : Bool) (body : CompileM Bool) :
    CompileM Unit := do
  let outer := (← get).scope
  let scope ← onSymbols (·.fork outer false)
  let draft ← inScope scope (inDraft .function do
    for param in params do
      markAssigned (← define param.name)
    if !(← body) then emit pos .ret [0])
  let symbols := (← get).symbols
  let f : Function := {
    id := ← newFunctionId
    code := draft.code
    locals := symbols.slots scope
    parameters := params.length
    variadic
    positions := draft.positions }
  let captures := (symbols.scope scope).captures.toList
  let index ← addConstant pos (.function f)
  if captures.isEmpty then emit pos .const [index]
  else
    for id in captures do capture pos id
    let n ← counted pos captures.length maxNarrow "closure captures"
    emit pos .closure [index, n]

def loop (pos : Pos) (condition : CompileM (Option Nat)) (post body : CompileM Unit) :
    CompileM Unit := do
  let start ← here
  let exit ← condition
  let exits ← inLoop body
  let next ← here
  post
  emit pos .jump [start]
  let stop ← here
  match exit with
  | some offset => patch offset stop
  | none => pure ()
  closeLoop exits stop next

/-- Binds a name to what an iterator stands at, unless the name is a blank. -/
def bindItem (pos : Pos) (it : SymbolId) (op : Opcode) (x : Ident) : CompileM Unit := do
  if x.name ≠ "_" then
    let id ← define x.name
    load pos it
    emit pos op
    bindLoopVariable x.pos id

/-- A loop over the items of a compiled expression. With a single name, it is bound to the items. -/
def iteration (pos : Pos) (key : Ident) (value : Option Ident) (iterable body : CompileM Unit) :
    CompileM Unit := inBlock do
  let it ← define ":it"
  iterable
  emit pos .iterInit
  bindLoopVariable pos it
  let condition := do
    load pos it
    emit pos .iterNext
    return some (← emitJump pos .jumpFalsy)
  loop pos condition (pure ()) do
    match value with
    | some value =>
      bindItem pos it .iterKey key
      bindItem pos it .iterValue value
    | none => bindItem pos it .iterValue key
    body

/-- Statements that follow a condition on the stack, with what is done otherwise. -/
def conditional (pos : Pos) (body : CompileM Unit) (otherwise : Option (CompileM Unit)) :
    CompileM Unit := do
  let skip ← emitJump pos .jumpFalsy
  body
  match otherwise with
  | none => patchHere skip
  | some other =>
    let stop ← emitJump pos .jump
    patchHere skip
    other
    patchHere stop

/-- The end of a function or module with a value on the stack or none. -/
def returnFrom (pos : Pos) (value : Option (CompileM Unit)) : CompileM Bool := do
  if (← get).draft.kind = .main then
    complain pos .returnOutsideFunction
    return false
  match value with
  | some value =>
    value
    emit pos .ret [1]
  | none => emit pos .ret [0]
  return true

/-- The value of a module. Outside modules it has no effect. -/
def exportFrom (pos : Pos) (value : CompileM Unit) : CompileM Bool := do
  match (← get).draft.kind with
  | .function =>
    complain pos .exportInsideFunction
    return false
  | .main => return false
  | .module =>
    value
    emit pos .freeze
    emit pos .ret [1]
    return true

end CompileM

namespace Compile

mutual

/-- Compiles an expression; `importing` compiles imports. -/
def expr (importing : Pos → String → CompileM Unit) : Expr → CompileM Unit
  | .ident pos name => do
    match ← resolve name with
    | some (id, _) => load pos id
    | none => complain pos (.unresolved name)
  | .int pos v => emitConstant pos (.int v)
  | .float pos v => emitConstant pos (.float v)
  | .char pos c => emitConstant pos (.char c)
  | .str pos s => emitConstant pos (.string s)
  | .bool pos b => emit pos (if b then .pushTrue else .pushFalse)
  | .undefined pos => emit pos .pushUndefined
  | .array pos items => do
    exprs importing items
    let n ← counted pos items.length maxWide "array literal"
    emit pos .array [n]
  | .map pos items => do
    entries importing items
    let n ← counted pos (items.length * 2) maxWide "map literal"
    emit pos .map [n]
  | .binary pos lhs op rhs => do
    expr importing lhs
    match op with
    | .logicalAnd =>
      let skip ← emitJump pos .andJump
      expr importing rhs
      patchHere skip
    | .logicalOr =>
      let skip ← emitJump pos .orJump
      expr importing rhs
      patchHere skip
    | .equal =>
      expr importing rhs
      emit pos .equal
    | .notEqual =>
      expr importing rhs
      emit pos .notEqual
    | .arith op =>
      expr importing rhs
      emit pos .binary [op.code]
  | .unary pos op operand => do
    expr importing operand
    match op with
    | .negate => emit pos .negate
    | .logicalNot => emit pos .logicalNot
    | .complement => emit pos .complement
    | .plus => pure ()
  | .call pos callee args spread => do
    expr importing callee
    exprs importing args
    let n ← counted pos args.length maxNarrow "call"
    emit pos .call [n, spread.toNat]
  | .index pos target key => do
    expr importing target
    expr importing key
    emit pos .index
  | .select pos target key => do
    expr importing target
    emitConstant pos (.string key)
    emit pos .index
  | .slice pos target low high => do
    expr importing target
    bound importing pos low
    bound importing pos high
    emit pos .slice
  | .cond pos c a b => do
    expr importing c
    conditional pos (expr importing a) (some (expr importing b))
  | .func pos params variadic body => functionLiteral pos params variadic (block importing body)
  | .error pos value => do
    expr importing value
    emit pos .error
  | .immutable pos value => do
    expr importing value
    emit pos .freeze
  | .importModule pos name => importing pos name
  | .paren _ inner => expr importing inner
  | .bad pos message => complain pos (.unreadable message)

def exprs (importing : Pos → String → CompileM Unit) : List Expr → CompileM Unit
  | [] => pure ()
  | e :: rest => do
    expr importing e
    exprs importing rest

def entries (importing : Pos → String → CompileM Unit) : List MapEntry → CompileM Unit
  | [] => pure ()
  | .mk key keyPos value :: rest => do
    emitConstant keyPos (.string key)
    expr importing value
    entries importing rest

def bound (importing : Pos → String → CompileM Unit) (pos : Pos) : Option Expr → CompileM Unit
  | some e => expr importing e
  | none => emit pos .pushUndefined

/-- Compiles the selectors of an assignable expression, the last one first. -/
def selectors (importing : Pos → String → CompileM Unit) : Expr → CompileM Unit
  | .select pos target key => do
    emitConstant pos (.string key)
    selectors importing target
  | .index _ target key => do
    expr importing key
    selectors importing target
  | _ => pure ()

def stmt (importing : Pos → String → CompileM Unit) : Stmt → CompileM Bool
  | .expr pos e => do
    expr importing e
    emit pos .pop
    return false
  | .assign pos [target] [value] op => do
    assign pos ⟨target.pos, target.place?, expr importing target, selectors importing target⟩ op
      value.isFunction (expr importing value)
    return false
  | .assign pos _ _ _ => do
    complain pos .tupleAssignment
    return false
  | .incDec pos target up => do
    assign pos ⟨target.pos, target.place?, expr importing target, selectors importing target⟩
      (.combine (if up then .add else .sub)) false (emitConstant pos (.int 1))
    return false
  | .block _ body => block importing body
  | .ifThen pos init c body otherwise => do
    inBlock do
      optional importing init
      expr importing c
      match otherwise with
      | some other =>
        conditional pos (discard (block importing body)) (some (discard (stmt importing other)))
      | none => conditional pos (discard (block importing body)) none
    return false
  | .loop pos init c post body => do
    inBlock do
      optional importing init
      loop pos (condition importing pos c) (optional importing post) (discard (block importing body))
    return false
  | .forIn pos key value iterable body => do
    iteration pos key value (expr importing iterable) (discard (block importing body))
    return false
  | .breakLoop pos => branch pos true
  | .continueLoop pos => branch pos false
  | .ret pos (some value) => returnFrom pos (some (expr importing value))
  | .ret pos none => returnFrom pos none
  | .exportValue pos value => exportFrom pos (expr importing value)
  | .empty _ => return false
  | .bad pos message => do
    complain pos (.unreadable message)
    return false

def optional (importing : Pos → String → CompileM Unit) : Option Stmt → CompileM Unit
  | some s => discard (stmt importing s)
  | none => pure ()

/-- Compiles the condition of a loop and gives the jump that ends the loop. -/
def condition (importing : Pos → String → CompileM Unit) (pos : Pos) :
    Option Expr → CompileM (Option Nat)
  | some c => do
    expr importing c
    return some (← emitJump pos .jumpFalsy)
  | none => return none

/-- Compiles statements up to one that leaves the block. -/
def stmts (importing : Pos → String → CompileM Unit) : List Stmt → CompileM Bool
  | [] => return false
  | s :: rest => do
    if ← stmt importing s then return true
    stmts importing rest

/-- Compiles a block in a scope of its own; an empty one needs none. -/
def block (importing : Pos → String → CompileM Unit) : Block → CompileM Bool
  | .mk _ body => if body.isEmpty then return false else inBlock (stmts importing body)

end

/-- Compiles the statements of a file up to one that leaves it, or until enough complaints are
recorded. -/
def topLevel (importing : Pos → String → CompileM Unit) : List Stmt → CompileM Bool
  | [] => return false
  | s :: rest => do
    if ← isFull then return false
    if ← stmt importing s then return true
    topLevel importing rest

end Compile

end ScriptEngine
