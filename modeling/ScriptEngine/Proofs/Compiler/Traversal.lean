import ScriptEngine.Compiler
/-!
# Two compilations side by side

The compiler is one pass over a syntax tree that leaves imports to a parameter. So whatever relates two ways of
compiling imports relates the two compilations of a whole tree, as long as it passes on to what is made of
related parts and holds of all actions that do not touch the imported modules (`Parametric.expr`,
`Parametric.topLevel`).
-/

namespace ScriptEngine

open CompileM Compile

/-- A relation between computations that passes on to computations made of related ones, and that relates to
itself every action that leaves the imported modules alone. -/
structure Parametric (P : ∀ {α : Type}, CompileM α → CompileM α → Prop) : Prop where
  pure {α : Type} (a : α) : P (Pure.pure a) (Pure.pure a)
  bind {α β : Type} {x x' : CompileM α} {f f' : α → CompileM β} (hx : P x x') (hf : ∀ a, P (f a) (f' a)) :
    P (x >>= f) (x' >>= f')
  act {α : Type} {f : CompileState → α × CompileState}
    (hf : ∀ s, (f s).2.imported = s.imported ∧ (f s).2.importing = s.importing) :
    P (modifyGet f : CompileM α) (modifyGet f)
  complain (pos : Pos) (c : Complaint) : P (complain pos c) (complain pos c)
  isFull : P isFull isFull

/-- Looks a name up in a state, for the computation and as a function on states. -/
def resolveIn (name : String) (s : CompileState) : CompileM (Option (SymbolId × Nat)) :=
  match s.symbols.resolve s.scope name with
  | some (id, depth, symbols) => do
    set { s with symbols }
    return some (id, depth)
  | none => return none

@[inherit_doc resolveIn]
def resolving (name : String) (s : CompileState) : Option (SymbolId × Nat) × CompileState :=
  match s.symbols.resolve s.scope name with
  | some (id, depth, symbols) => (some (id, depth), { s with symbols })
  | none => (none, s)

namespace Parametric

variable {P : ∀ {α : Type}, CompileM α → CompileM α → Prop} (hP : Parametric @P)

include hP

/-! ### Single actions -/

section Actions

variable {α β : Type} {x x' y y' : CompileM α} (pos : Pos)

theorem discard (hx : P x x') : P (discard x) (discard x') := by
  have hbind := hP.bind hx fun _ => hP.pure PUnit.unit
  exact hbind

omit hP in
theorem ite (_ : Parametric @P) {p : Prop} [Decidable p] (hx : P x x') (hy : P y y') :
    P (if p then x else y) (if p then x' else y') := by
  split
  · exact hx
  · exact hy

theorem get : P (MonadState.get) MonadState.get :=
  hP.act fun _ => ⟨rfl, rfl⟩

theorem modify {f : CompileState → CompileState}
    (hf : ∀ s, (f s).imported = s.imported ∧ (f s).importing = s.importing) :
    P (modify f) (modify f) := hP.act hf

theorem onSymbols (f : SymbolTable → α × SymbolTable) : P (onSymbols f) (onSymbols f) := hP.act fun _ => ⟨rfl, rfl⟩

/-- Goes on without the result after a complaint. -/
theorem refuse (c : Complaint) (a : α) :
    P (do CompileM.complain pos c; Pure.pure a) (do CompileM.complain pos c; Pure.pure a) :=
  hP.bind (hP.complain pos c) fun _ => hP.pure a

/-- Does something for every item. -/
theorem forIn {γ : Type} {f : γ → PUnit → CompileM (ForInStep PUnit)} (hf : ∀ c r, P (f c r) (f c r)) (cs : List γ)
    (r : PUnit) : P (forIn cs r f) (forIn cs r f) := by
  induction cs generalizing r with
  | nil => exact hP.pure _
  | cons c cs ih =>
    rw [List.forIn_cons]
    refine hP.bind (hf c r) fun step => ?_
    cases step with
    | done => exact hP.pure _
    | yield => exact ih _

theorem emit (op : Opcode) (operands : List Nat) : P (emit pos op operands) (emit pos op operands) :=
  hP.modify fun _ => ⟨rfl, rfl⟩

theorem here : P here here := hP.bind hP.get fun _ => hP.pure _

theorem emitJump (op : Opcode) : P (emitJump pos op) (emitJump pos op) :=
  hP.bind hP.here fun _ => hP.bind (hP.emit pos op _) fun _ => hP.pure _

theorem patch (offset target : Nat) : P (patch offset target) (patch offset target) := hP.modify fun _ => ⟨rfl, rfl⟩

theorem patchHere (offset : Nat) : P (patchHere offset) (patchHere offset) :=
  hP.bind hP.here fun _ => hP.patch offset _

theorem addConstant (v : Value) : P (addConstant pos v) (addConstant pos v) :=
  hP.bind hP.get fun _ => hP.ite (hP.refuse pos _ _)
    (hP.bind (hP.modify fun _ => ⟨rfl, rfl⟩) fun _ => hP.pure _)

theorem emitConstant (v : Value) : P (emitConstant pos v) (emitConstant pos v) :=
  hP.bind (hP.addConstant pos v) fun _ => hP.emit pos _ _

theorem counted (n most : Nat) (what : String) : P (counted pos n most what) (counted pos n most what) :=
  hP.ite (hP.refuse pos _ _) (hP.pure _)

theorem newFunctionId : P newFunctionId newFunctionId :=
  hP.bind hP.get fun _ => hP.bind (hP.modify fun _ => ⟨rfl, rfl⟩) fun _ => hP.pure _

theorem resolve (name : String) : P (resolve name) (resolve name) := by
  have heq : CompileM.resolve name = modifyGet (resolving name) := by
    funext o s
    show resolveIn name s o s = resolving name s
    rw [resolveIn, resolving]
    cases s.symbols.resolve s.scope name <;> rfl
  rw [heq]
  refine hP.act fun s => ?_
  rw [resolving]
  cases s.symbols.resolve s.scope name <;> exact ⟨rfl, rfl⟩

theorem define (name : String) : P (define name) (define name) := hP.bind hP.get fun _ => hP.onSymbols _

theorem symbol (id : SymbolId) : P (symbol id) (symbol id) := hP.bind hP.get fun _ => hP.pure _

theorem markAssigned (id : SymbolId) : P (markAssigned id) (markAssigned id) := hP.onSymbols _

theorem slot (sym : Symbol) : P (slot pos sym) (slot pos sym) :=
  hP.ite (hP.refuse pos _ _) (hP.pure _)

theorem load (id : SymbolId) : P (load pos id) (load pos id) :=
  hP.bind (hP.symbol id) fun sym => hP.bind (hP.slot pos sym) fun _ => hP.emit pos _ _

theorem bindLoopVariable (id : SymbolId) : P (bindLoopVariable pos id) (bindLoopVariable pos id) :=
  hP.bind (hP.symbol id) fun sym => hP.bind (hP.slot pos sym) fun _ =>
    hP.ite (hP.emit pos _ _) (hP.bind (hP.markAssigned id) fun _ => hP.emit pos _ _)

theorem branch (isBreak : Bool) : P (branch pos isBreak) (branch pos isBreak) := by
  refine hP.bind hP.get fun s => ?_
  cases s.draft.loops with
  | nil => exact hP.refuse pos _ _
  | cons =>
    exact hP.bind (hP.emitJump pos _) fun _ => hP.bind (hP.modify fun _ => ⟨rfl, rfl⟩) fun _ => hP.pure _

theorem store (isDefine : Bool) (n : Nat) (id : SymbolId) : P (store pos isDefine n id) (store pos isDefine n id) := by
  refine hP.bind (hP.symbol id) fun sym => hP.bind (hP.slot pos sym) fun index => ?_
  have hmark : ∀ op operands, P (do CompileM.emit pos op operands; CompileM.markAssigned id)
      (do CompileM.emit pos op operands; CompileM.markAssigned id) :=
    fun op operands => hP.bind (hP.emit pos op operands) fun _ => hP.markAssigned id
  cases sym.storage with
  | builtin => exact hP.complain pos _
  | slot => cases n == 0 <;> exact hmark _ _
  | global | captured => cases n == 0 <;> exact hP.emit pos _ _

theorem capture (id : SymbolId) : P (capture pos id) (capture pos id) := by
  refine hP.bind (hP.symbol id) fun sym => hP.bind (hP.slot pos sym) fun index => ?_
  cases sym.storage with
  | slot =>
    exact hP.ite (hP.bind (hP.emit pos _ _) fun _ => hP.bind (hP.emit pos _ _) fun _ =>
      hP.bind (hP.markAssigned id) fun _ => hP.emit pos _ _) (hP.emit pos _ _)
  | captured => exact hP.emit pos _ _
  | global | builtin => exact hP.pure _

theorem bindItem (it : SymbolId) (op : Opcode) (i : Ident) : P (bindItem pos it op i) (bindItem pos it op i) :=
  hP.ite (hP.bind (hP.define _) fun _ => hP.bind (hP.load pos it) fun _ => hP.bind (hP.emit pos op _) fun _ =>
    hP.bindLoopVariable _ _) (hP.pure _)

end Actions

/-! ### Actions made of others -/

section Parts

variable {α : Type} {x x' y y' : CompileM Unit} {z z' : CompileM α} (pos : Pos)

theorem inScope (scope : ScopeId) (hz : P z z') : P (inScope scope z) (inScope scope z') :=
  hP.bind hP.get fun _ => hP.bind (hP.modify fun _ => ⟨rfl, rfl⟩) fun _ => hP.bind hz fun _ =>
    hP.bind (hP.modify fun _ => ⟨rfl, rfl⟩) fun _ => hP.pure _

theorem inBlock (hz : P z z') : P (inBlock z) (inBlock z') :=
  hP.bind hP.get fun _ => hP.bind (hP.onSymbols _) fun _ => hP.inScope _ hz

theorem inDraft (kind : BodyKind) (hx : P x x') : P (inDraft kind x) (inDraft kind x') := by
  refine hP.bind (hP.act ?_) fun outer => hP.bind hx fun _ => hP.act ?_
  · exact fun _ => ⟨rfl, rfl⟩
  · exact fun _ => ⟨rfl, rfl⟩

theorem inLoop (hx : P x x') : P (inLoop x) (inLoop x') := by
  refine hP.bind (hP.modify fun _ => ⟨rfl, rfl⟩) fun _ => hP.bind hx fun _ => hP.act ?_
  exact fun _ => ⟨rfl, rfl⟩

theorem closeLoop (exits : LoopExits) (stop next : Nat) : P (closeLoop exits stop next) (closeLoop exits stop next) :=
  hP.modify fun _ => ⟨rfl, rfl⟩

theorem loop {condition condition' : CompileM (Option Nat)} (hcondition : P condition condition') (hx : P x x')
    (hy : P y y') : P (loop pos condition x y) (loop pos condition' x' y') := by
  refine hP.bind hP.here fun _ => hP.bind hcondition fun exit => hP.bind (hP.inLoop hy) fun _ => hP.bind hP.here fun _ =>
    hP.bind hx fun _ => hP.bind (hP.emit pos _ _) fun _ => hP.bind hP.here fun _ => ?_
  cases exit with
  | some offset => exact hP.bind (hP.patch offset _) fun _ => hP.closeLoop _ _ _
  | none => exact hP.bind (hP.pure ()) fun _ => hP.closeLoop _ _ _

theorem iteration (key : Ident) (value : Option Ident) (hx : P x x') (hy : P y y') :
    P (iteration pos key value x y) (iteration pos key value x' y') := by
  refine hP.inBlock (hP.bind (hP.define _) fun it => hP.bind hx fun _ => hP.bind (hP.emit pos _ _) fun _ =>
    hP.bind (hP.bindLoopVariable pos it) fun _ => hP.loop pos ?_ (hP.pure _) ?_)
  · exact hP.bind (hP.load pos it) fun _ => hP.bind (hP.emit pos _ _) fun _ => hP.bind (hP.emitJump pos _) fun _ =>
      hP.pure _
  · cases value with
    | some value => exact hP.bind (hP.bindItem pos it _ key) fun _ => hP.bind (hP.bindItem pos it _ value) fun _ => hy
    | none => exact hP.bind (hP.bindItem pos it _ key) fun _ => hy

theorem conditional (hx : P x x') : P (conditional pos x none) (conditional pos x' none) :=
  hP.bind (hP.emitJump pos _) fun _ => hP.bind hx fun _ => hP.patchHere _

theorem conditional_else (hx : P x x') (hy : P y y') :
    P (CompileM.conditional pos x (some y)) (CompileM.conditional pos x' (some y')) :=
  hP.bind (hP.emitJump pos _) fun _ => hP.bind hx fun _ => hP.bind (hP.emitJump pos _) fun _ =>
    hP.bind (hP.patchHere _) fun _ => hP.bind hy fun _ => hP.patchHere _

/-- The end of a function, whose value is left out or compiled in two ways. -/
theorem returnFrom {value value' : Option (CompileM Unit)}
    (hvalue : value = none ∧ value' = none ∨ ∃ x x', value = some x ∧ value' = some x' ∧ P x x') :
    P (returnFrom pos value) (returnFrom pos value') := by
  refine hP.bind hP.get fun s => hP.ite (hP.refuse pos _ _) ?_
  rcases hvalue with ⟨rfl, rfl⟩ | ⟨x, x', rfl, rfl, hx⟩
  · exact hP.bind (hP.emit pos _ _) fun _ => hP.pure _
  · exact hP.bind hx fun _ => hP.bind (hP.emit pos _ _) fun _ => hP.pure _

theorem exportFrom (hx : P x x') : P (exportFrom pos x) (exportFrom pos x') := by
  refine hP.bind hP.get fun s => ?_
  cases s.draft.kind with
  | function => exact hP.refuse pos _ _
  | main => exact hP.pure _
  | module => exact hP.bind hx fun _ => hP.bind (hP.emit pos _ _) fun _ => hP.bind (hP.emit pos _ _) fun _ => hP.pure _

/-- The symbol of a target depends on its position only. -/
theorem targetSymbol {target target' : Target} (hpos : target'.pos = target.pos) (name : String)
    (isDefine isFunction : Bool) :
    P (targetSymbol pos target name isDefine isFunction) (targetSymbol pos target' name isDefine isFunction) := by
  refine hP.bind (hP.resolve name) fun found => ?_
  have hdefine : P (if isFunction then return some (some (← CompileM.define name)) else return some none)
      (if isFunction then return some (some (← CompileM.define name)) else return some none) :=
    hP.ite (hP.bind (hP.define name) fun _ => hP.pure _) (hP.pure _)
  cases isDefine with
  | true =>
    cases found with
    | none => exact hdefine
    | some x =>
      obtain ⟨id, depth⟩ := x
      cases depth with
      | zero => exact hP.refuse pos _ _
      | succ depth => exact hdefine
  | false =>
    rw [hpos]
    cases found with
    | none => exact hP.refuse _ _ _
    | some x =>
      obtain ⟨id, depth⟩ := x
      cases depth <;> exact hP.pure _

theorem assign {read read' selectors selectors' : CompileM Unit} (targetPos : Pos) (place : Option (String × Nat))
    (hread : P read read') (hselectors : P selectors selectors') (op : AssignOp) (isFunction : Bool) (hx : P x x') :
    P (assign pos ⟨targetPos, place, read, selectors⟩ op isFunction x)
      (assign pos ⟨targetPos, place, read', selectors'⟩ op isFunction x') := by
  have hend : ∀ n id, P (do selectors; CompileM.store pos (decide (op = .define)) n id)
      (do selectors'; CompileM.store pos (decide (op = .define)) n id) :=
    fun n id => hP.bind hselectors fun _ => hP.store pos _ n id
  cases place with
  | none =>
    exact hP.complain _ _
  | some place =>
    refine hP.ite (hP.complain pos _) (hP.bind (hP.targetSymbol pos rfl _ _ isFunction) fun known => ?_)
    cases known with
    | none => exact hP.pure _
    | some known =>
      -- What is read before the value and what is combined after it depend on the operator.
      cases hop : op.operator? with
      | none =>
        cases known with
        | some id => exact hP.bind hx fun _ => hP.bind (hP.pure id) fun _ => hend _ _
        | none => exact hP.bind hx fun _ => hP.bind (hP.define _) fun _ => hend _ _
      | some operator =>
        cases known with
        | some id =>
          exact hP.bind hread fun _ => hP.bind hx fun _ => hP.bind (hP.pure id) fun _ =>
            hP.bind (hP.emit pos _ _) fun _ =>
            hend _ _
        | none =>
          exact hP.bind hread fun _ => hP.bind hx fun _ => hP.bind (hP.define _) fun _ =>
            hP.bind (hP.emit pos _ _) fun _ =>
            hend _ _

theorem functionLiteral {test test' : CompileM Bool} (params : List Ident) (variadic : Bool) (hbody : P test test') :
    P (functionLiteral pos params variadic test) (functionLiteral pos params variadic test') := by
  refine hP.bind hP.get fun _ => hP.bind (hP.onSymbols _) fun scope => ?_
  refine hP.bind (hP.inScope scope (hP.inDraft _ ?_)) fun draft => ?_
  · refine hP.bind (hP.forIn (fun param _ => ?_) params _) fun _ => ?_
    · exact hP.bind (hP.define _) fun id => hP.bind (hP.markAssigned id) fun _ => hP.pure _
    · exact hP.bind hbody fun _ => hP.ite (hP.emit pos _ _) (hP.pure _)
  · refine hP.bind hP.get fun s => hP.bind hP.newFunctionId fun id => hP.bind (hP.addConstant pos _) fun index => ?_
    refine hP.ite (hP.emit pos _ _) ?_
    exact hP.bind (hP.forIn (fun id _ => hP.bind (hP.capture pos id) fun _ => hP.pure _) _ _) fun _ =>
      hP.bind (hP.counted pos _ _ _) fun _ => hP.emit pos _ _

end Parts

/-! ### Syntax trees -/

section Trees

variable {importing importing' : Pos → String → CompileM Unit}
  (himport : ∀ pos name, P (importing pos name) (importing' pos name))

include himport

set_option linter.unusedSectionVars false

mutual

theorem expr : ∀ e : Expr, P (expr importing e) (expr importing' e)
  | .ident pos name => by
    refine hP.bind (hP.resolve name) fun found => ?_
    cases found with
    | some x => exact hP.load pos _
    | none => exact hP.complain pos _
  | .int pos _ | .float pos _ | .char pos _ | .str pos _ => hP.emitConstant pos _
  | .bool pos _ | .undefined pos => hP.emit pos _ _
  | .array pos items => hP.bind (exprs items) fun _ => hP.bind (hP.counted pos _ _ _) fun _ => hP.emit pos _ _
  | .map pos items => hP.bind (entries items) fun _ => hP.bind (hP.counted pos _ _ _) fun _ => hP.emit pos _ _
  | .binary pos lhs op rhs => by
    refine hP.bind (expr lhs) fun _ => ?_
    cases op with
    | logicalAnd | logicalOr =>
      exact hP.bind (hP.emitJump pos _) fun _ => hP.bind (expr rhs) fun _ => hP.patchHere _
    | equal | notEqual | arith => exact hP.bind (expr rhs) fun _ => hP.emit pos _ _
  | .unary pos op operand => by
    refine hP.bind (expr operand) fun _ => ?_
    cases op with
    | plus => exact hP.pure _
    | negate | logicalNot | complement => exact hP.emit pos _ _
  | .call pos callee args _ =>
    hP.bind (expr callee) fun _ => hP.bind (exprs args) fun _ => hP.bind (hP.counted pos _ _ _) fun _ => hP.emit pos _ _
  | .index pos target key => hP.bind (expr target) fun _ => hP.bind (expr key) fun _ => hP.emit pos _ _
  | .select pos target _ => hP.bind (expr target) fun _ => hP.bind (hP.emitConstant pos _) fun _ => hP.emit pos _ _
  | .slice pos target low high =>
    hP.bind (expr target) fun _ => hP.bind (bound pos low) fun _ => hP.bind (bound pos high) fun _ => hP.emit pos _ _
  | .cond pos c a b => hP.bind (expr c) fun _ => hP.conditional_else pos (expr a) (expr b)
  | .func pos params variadic body => hP.functionLiteral pos params variadic (block body)
  | .error pos value | .immutable pos value => hP.bind (expr value) fun _ => hP.emit pos _ _
  | .importModule pos name => himport pos name
  | .paren _ inner => expr inner
  | .bad pos _ => hP.complain pos _

theorem exprs : ∀ es : List Expr, P (exprs importing es) (exprs importing' es)
  | [] => hP.pure _
  | e :: rest => hP.bind (expr e) fun _ => exprs rest

theorem entries : ∀ es : List MapEntry, P (entries importing es) (entries importing' es)
  | [] => hP.pure _
  | .mk _ keyPos value :: rest =>
    hP.bind (hP.emitConstant keyPos _) fun _ => hP.bind (expr value) fun _ => entries rest

theorem bound (pos : Pos) : ∀ e : Option Expr, P (bound importing pos e) (bound importing' pos e)
  | some e => expr e
  | none => hP.emit pos _ _

theorem selectors : ∀ e : Expr, P (selectors importing e) (selectors importing' e)
  | .select pos target _ => hP.bind (hP.emitConstant pos _) fun _ => selectors target
  | .index _ target key => hP.bind (expr key) fun _ => selectors target
  | .ident .. | .int .. | .float .. | .char .. | .str .. | .bool .. | .undefined .. | .array .. | .map .. | .binary ..
  | .unary .. | .call .. | .slice .. | .cond .. | .func .. | .error .. | .immutable .. | .importModule .. | .paren ..
  | .bad .. => hP.pure _

theorem stmt : ∀ s : Stmt, P (stmt importing s) (stmt importing' s)
  | .expr pos e => hP.bind (expr e) fun _ => hP.bind (hP.emit pos _ _) fun _ => hP.pure _
  | .assign pos [target] [value] op =>
    hP.bind (hP.assign pos _ _ (expr target) (selectors target) op _ (expr value)) fun _ => hP.pure _
  | .assign pos [] _ _ | .assign pos (_ :: _ :: _) _ _ | .assign pos [_] [] _ | .assign pos [_] (_ :: _ :: _) _ =>
    hP.refuse pos _ _
  | .incDec pos target _ =>
    hP.bind (hP.assign pos _ _ (expr target) (selectors target) _ _ (hP.emitConstant pos _)) fun _ => hP.pure _
  | .block _ body => block body
  | .ifThen pos init c body (some other) =>
    hP.bind (hP.inBlock (hP.bind (optional init) fun _ => hP.bind (expr c) fun _ =>
      hP.conditional_else pos (hP.discard (block body)) (hP.discard (stmt other)))) fun _ => hP.pure _
  | .ifThen pos init c body none =>
    hP.bind (hP.inBlock (hP.bind (optional init) fun _ => hP.bind (expr c) fun _ =>
      hP.conditional pos (hP.discard (block body)))) fun _ => hP.pure _
  | .loop pos init c post body =>
    hP.bind (hP.inBlock (hP.bind (optional init) fun _ =>
      hP.loop pos (condition pos c) (optional post) (hP.discard (block body)))) fun _ => hP.pure _
  | .forIn pos key value iterable body =>
    hP.bind (hP.iteration pos key value (expr iterable) (hP.discard (block body))) fun _ => hP.pure _
  | .breakLoop pos | .continueLoop pos => hP.branch pos _
  | .ret pos (some value) => hP.returnFrom pos (.inr ⟨_, _, rfl, rfl, expr value⟩)
  | .ret pos none => hP.returnFrom pos (.inl ⟨rfl, rfl⟩)
  | .exportValue pos value => hP.exportFrom pos (expr value)
  | .empty _ => hP.pure _
  | .bad pos _ => hP.refuse pos _ _

theorem optional : ∀ s : Option Stmt, P (optional importing s) (optional importing' s)
  | some s => hP.discard (stmt s)
  | none => hP.pure _

theorem condition (pos : Pos) : ∀ e : Option Expr, P (condition importing pos e) (condition importing' pos e)
  | some e => hP.bind (expr e) fun _ => hP.bind (hP.emitJump pos _) fun _ => hP.pure _
  | none => hP.pure _

theorem stmts : ∀ ss : List Stmt, P (stmts importing ss) (stmts importing' ss)
  | [] => hP.pure _
  | s :: rest => hP.bind (stmt s) fun _ => hP.ite (hP.pure _) (stmts rest)

theorem block : ∀ b : Block, P (block importing b) (block importing' b)
  | .mk _ body => hP.ite (hP.pure _) (hP.inBlock (stmts body))

end

theorem topLevel (ss : List Stmt) : P (topLevel importing ss) (topLevel importing' ss) := by
  induction ss with
  | nil => exact hP.pure _
  | cons s rest ih =>
    exact hP.bind hP.isFull fun _ => hP.ite (hP.pure _) (hP.bind (hP.stmt himport s) fun _ => hP.ite (hP.pure _) ih)

/-- The body of a module, up to the return at its end. -/
theorem moduleDraft (file : File) :
    P (CompileM.inDraft .module do
        if !(← Compile.topLevel importing file.stmts) then CompileM.emit Pos.unknown .ret [0])
      (CompileM.inDraft .module do
        if !(← Compile.topLevel importing' file.stmts) then CompileM.emit Pos.unknown .ret [0]) :=
  hP.inDraft .module (hP.bind (hP.topLevel himport file.stmts) fun _ => hP.ite (hP.emit _ _ _) (hP.pure _))

end Trees

end Parametric

end ScriptEngine
