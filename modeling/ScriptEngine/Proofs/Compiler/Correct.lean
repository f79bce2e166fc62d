import ScriptEngine.Proofs.Compiler.Actions
/-!
# The code of a compilation

A compilation without complaints makes the code that `Lowers` describes, for every piece of a syntax
tree and, through imports, for every file. So what holds of all code that `Lowers` describes holds of
compiled programs.
-/

namespace ScriptEngine

open CompileM CompileState Compile

variable {value : CompileM Unit} {e : Expr} {s : Stmt}

variable {m : CompileM Unit} {R S : Context → Stage → Code → Stage → Prop}

variable {o : CompileOptions} {C : List String → Prop}

/-- Code that depends on the context and the stage, made while the modules being imported satisfy a condition. -/
def Makes (C : List String → Prop) (R : Context → Stage → Code → Stage → Prop) :
    CompileState → Unit → Code → Stage → Prop := fun s _ c σ =>
  C s.importing → R s.context s.stage c σ

/-- The code of a piece of a syntax tree. -/
abbrev Emits (o : CompileOptions) (C : List String → Prop) (φ : Phrase) :
    CompileState → Unit → Code → Stage → Prop :=
  Makes C fun ctx σ c τ => Lowers o ctx φ σ c τ

/-- The same for statements, whose compilation says whether the code leaves the block. -/
def EmitsAll (o : CompileOptions) (C : List String → Prop) (φ : Phrase) (leaves : BodyKind → Bool) :
    CompileState → Bool → Code → Stage → Prop := fun s a c σ =>
  C s.importing → a = leaves s.context.kind ∧ Lowers o s.context φ s.stage c σ

/-! ### Sequences -/

theorem Meets.then {k : CompileM Unit} (hm : Meets o m (Makes C R)) (hk : Meets o k (Makes C S)) :
    Meets o (m >>= fun _ => k) (Makes C fun ctx σ c τ =>
      ∃ a σ1 b, R ctx σ a σ1 ∧ S ctx σ1 b τ ∧ c = a.seq b) := by
  refine (hm.bind fun _ => hk).mono ?_
  rintro s _ c σ ⟨_, a, σ1, b, ha, hb, rfl⟩ hstack
  have hb := hb hstack
  rw [context_advance] at hb
  exact ⟨a, σ1, b, ha hstack, hb, rfl⟩

theorem Meets.making (hm : Meets o m (Makes C R))
    (h : ∀ ctx σ c τ, R ctx σ c τ → S ctx σ c τ) : Meets o m (Makes C S) :=
  hm.mono fun _ _ _ _ hR hstack => h _ _ _ _ (hR hstack)

/-- Whatever modules are being imported. -/
theorem Meets.makes (hm : Meets o m fun s _ c σ => R s.context s.stage c σ) : Meets o m (Makes C R) :=
  hm.mono fun _ _ _ _ h _ => h

theorem makes_nothing (h : ∀ ctx σ, R ctx σ .nop σ) : Meets o (Pure.pure ()) (Makes C R) := by
  refine (Quiet.pure ()).toMeets.mono ?_
  rintro s _ _ _ ⟨rfl, -, rfl⟩ _
  exact h _ _

section

variable (pos : Pos)

theorem makes_emit (op : Opcode) (operands : List Nat) :
    Meets o (emit pos op operands) (Makes C fun _ σ c τ => c = .instr pos op operands ∧ τ = σ) :=
  (meets_emit pos op operands).makes

theorem makes_emitConstant (v : Value) :
    Meets o (emitConstant pos v) (Makes C fun _ σ c τ => σ.constants.size ≤ maxWide ∧
      c = .instr pos .const [σ.constants.size] ∧ τ = σ.addConstant v) := (meets_emitConstant pos v).makes

theorem makes_store (isDefine : Bool) (n : Nat) (id : SymbolId) :
    Meets o (store pos isDefine n id) (Makes C fun _ σ c τ => σ.store pos isDefine n id = some (c, τ)) :=
  (meets_store pos isDefine n id).makes

theorem makes_counted (n most : Nat) (what : String) (op : Opcode) (rest : List Nat) :
    Meets o (do let n ← counted pos n most what; emit pos op (n :: rest))
      (Makes C fun _ σ c τ => n ≤ most ∧ c = .instr pos op (n :: rest) ∧ τ = σ) := by
  refine ((quiet_counted pos n most what).andThen fun k => meets_emit pos op (k :: rest)).mono ?_
  rintro s _ c σ ⟨_, _, ⟨rfl, hle, rfl⟩, rfl, rfl⟩ _
  exact ⟨hle, rfl, rfl⟩

theorem makes_skip (branch : Branch) (hm : Meets o m (Makes C R)) :
    Meets o (do
      let skip ← emitJump pos branch.op
      m
      patchHere skip) (Makes C fun ctx σ c τ => ∃ b, R ctx σ b τ ∧ c = .skip pos branch b) := by
  refine (meets_skip pos branch hm).mono ?_
  rintro s _ c σ ⟨b, hb, rfl⟩ hstack
  have hb := hb hstack
  rw [context_advance] at hb
  exact ⟨b, hb, rfl⟩

theorem makes_choose {other : CompileM Unit}
    (hm : Meets o m (Makes C R)) (hother : Meets o other (Makes C S)) :
    Meets o (conditional pos m (some other)) (Makes C fun ctx σ c τ =>
      ∃ a σ1 b, R ctx σ a σ1 ∧ S ctx σ1 b τ ∧ c = .choose pos a b) := by
  refine (meets_conditional_some pos hm hother).mono ?_
  rintro s _ c σ ⟨a, σ1, b, ha, hb, rfl⟩ hstack
  have ha := ha hstack
  have hb := hb hstack
  rw [context_advance] at ha hb
  exact ⟨a, σ1, b, ha, hb, rfl⟩

end

theorem makes_inBlock (hm : Meets o m (Makes C R)) :
    Meets o (inBlock m) (Makes C fun ctx σ c τ =>
      ∃ σ1, R ctx (σ.enter true) c σ1 ∧ τ = σ1.returnTo σ.scope) := by
  refine (meets_inBlock hm).mono ?_
  rintro s _ c σ ⟨σ1, ha, rfl⟩ hstack
  have ha := ha hstack
  rw [context_advance] at ha
  exact ⟨σ1, ha, rfl⟩

theorem makes_loop (pos : Pos) (tests : Bool) {condition : CompileM (Option Nat)} {post body : CompileM Unit}
    {T : Context → Stage → Code → Stage → Prop}
    (hcondition : Meets o condition (Tests pos tests fun s c σ => Makes C R s () c σ))
    (hbody : Meets o body (Makes C S)) (hpost : Meets o post (Makes C T)) :
    Meets o (CompileM.loop pos condition post body) (Makes C fun ctx σ c τ =>
      ∃ head σ1 inside σ2 after, R ctx σ head σ1 ∧ S { ctx with inLoop := true } σ1 inside σ2 ∧
        T ctx σ2 after τ ∧ c = .loop pos head tests inside after) := by
  refine (meets_loop pos tests hcondition hbody hpost).mono ?_
  rintro s _ c σ ⟨head, s1, inside, s2, after, hR, hctx1, hS, hctx2, hT, rfl⟩ hstack
  have hS := hS ((congrArg (fun ctx => C ctx.importing) hctx1).mpr hstack)
  have hT := hT ((congrArg (fun ctx => C ctx.importing) hctx2).mpr hstack)
  rw [hctx1] at hS
  rw [hctx2] at hT
  exact ⟨head, s1.stage, inside, s2.stage, after, hR hstack, hS, hT, rfl⟩

/-! ### Functions -/

/-- The body of a function, which returns at its end. -/
theorem meets_functionBody (pos : Pos) {m : CompileM Bool} {P : CompileState → Bool → Code → Stage → Prop}
    (hm : Meets o m P) :
    Meets o (do if !(← m) then emit pos .ret [0]) fun s _ c σ =>
      ∃ a b, P s a b σ ∧ c = b.closing pos a := by
  have hend : ∀ a : Bool, Meets o (if !a then emit pos .ret [0] else Pure.pure ()) fun s _ c σ =>
      c = (if a then .nop else .instr pos .ret [0]) ∧ σ = s.stage := by
    intro a
    cases a with
    | false => exact (meets_emit pos .ret [0]).mono fun _ _ _ _ h => h
    | true => exact (Quiet.pure ()).toMeets.mono fun _ _ _ _ h => ⟨h.1, h.2.2⟩
  intro s hclean
  obtain ⟨hs, c, σ, ⟨a, b, σ1, _, hP, ⟨rfl, rfl⟩, rfl⟩, heq⟩ := (hm.bind hend) s hclean
  cases a with
  | false => exact ⟨hs, _, σ1, ⟨false, b, hP, rfl⟩, heq⟩
  | true =>
    refine ⟨hs, b, σ1, ⟨true, b, hP, rfl⟩, ?_⟩
    rw [← advance_seq_nop]
    exact heq

theorem meets_functionLiteral (pos : Pos) (params : List Ident) (variadic : Bool) (body : Block)
    {m : CompileM Bool} (hm : Meets o m (EmitsAll o C (.block body) (body.leaves ·))) :
    Meets o (functionLiteral pos params variadic m) (Emits o C (.expr (.func pos params variadic body))) := by
  have hdraft := quiet_inDraft .function ((quiet_defineAll params).andThen fun _ =>
    meets_functionBody pos hm)
  have hend : ∀ captures index, Meets o
      (if captures.isEmpty then emit pos .const [index]
        else do
          for id in captures do capture pos id
          let n ← counted pos captures.length maxNarrow "closure captures"
          emit pos .closure [index, n]) fun s _ c σ =>
      ∃ b, s.stage.captureAll pos captures = some (b, σ) ∧ captures.length ≤ maxNarrow ∧
        c = b.makeFunction pos index captures.length := by
    intro captures index
    refine Meets.ite (fun hempty => ?_) fun hne => ?_
    · obtain rfl := List.isEmpty_iff.1 hempty
      refine (meets_emit pos .const [index]).mono ?_
      rintro s _ c σ ⟨rfl, rfl⟩
      exact ⟨.nop, rfl, by decide, rfl⟩
    · refine ((meets_captureAll pos captures).bind fun _ => (quiet_counted pos _ _ _).andThen fun n =>
        meets_emit pos .closure [index, n]).mono ?_
      rintro s _ c σ ⟨_, b, σ1, _, hcapture, ⟨_, σ2, ⟨rfl, hcount, rfl⟩, rfl, rfl⟩, rfl⟩
      refine ⟨b, hcapture, hcount, ?_⟩
      rw [Code.makeFunction]
      · simpa using hne
  refine (quiet_get.andThen fun s0 => (quiet_onSymbols (·.fork s0.scope false)).andThen fun scope =>
    (quiet_inScope scope hdraft).andThen fun draft => quiet_get.andThen fun s1 =>
    quiet_newFunctionId.andThen fun id => (quiet_addConstant pos _).andThen fun index =>
    hend (s1.symbols.scope scope).captures.toList index).mono ?_
  rintro s _ c σ ⟨s0, _, ⟨rfl, rfl⟩, scope, _, ⟨rfl, rfl⟩, draft, _,
    ⟨σ1, ⟨body', ⟨_, _, rfl, a, b, hbody, rfl⟩, rfl⟩, rfl⟩, s1, _, ⟨rfl, rfl⟩, id, _, ⟨rfl, rfl⟩, index, _,
    ⟨rfl, hroom, rfl⟩, k, hcapture, hcount, rfl⟩ hstack
  obtain ⟨ha, hlowers⟩ := hbody hstack
  subst ha
  show Lowers o s0.context _ s0.stage
    (k.makeFunction pos σ1.constants.size (σ1.capturesOf s0.stage.newScope).length) σ
  exact Lowers.func hlowers rfl rfl hroom hcapture hcount

/-! ### Assignments -/

/-- The target of an assignment, given what the look-up of its name found. -/
def targetFrom (pos : Pos) (target : Target) (name : String) (isDefine isFunction : Bool)
    (found : Option (SymbolId × Nat)) : CompileM (Option (Option SymbolId)) := do
  match found, isDefine with
  | some (_, 0), true =>
    complain pos (.redeclared name)
    return none
  | _, true => if isFunction then return some (some (← define name)) else return some none
  | some (id, _), false => return some (some id)
  | none, false =>
    complain target.pos (.unresolved name)
    return none

theorem quiet_targetSymbol_define (pos : Pos) (target : Target) (name : String) (isFunction : Bool) :
    Quiet o (targetSymbol pos target name true isFunction) fun s a σ =>
      (∀ x σ', s.stage.resolve name ≠ some (x, 0, σ')) ∧
        (a, σ) = if isFunction then
            (some (some ((s.stage.lookedUp name).define name).1), ((s.stage.lookedUp name).define name).2)
          else (some none, s.stage.lookedUp name) := by
  have hnew : Quiet o (if isFunction then do return some (some (← define name)) else return some none)
      fun s a σ => (a, σ) = if isFunction then (some (some (s.stage.define name).1), (s.stage.define name).2)
        else (some none, s.stage) := by
    cases isFunction with
    | true =>
      refine ((quiet_define name).bind fun id => Quiet.pure _).mono ?_
      rintro s a σ ⟨id, σ1, hdefine, rfl, rfl⟩
      rw [← hdefine]
      rfl
    | false =>
      refine (Quiet.pure _).mono ?_
      rintro s a σ ⟨rfl, rfl⟩
      rfl
  have hrest : ∀ found, Quiet o (targetFrom pos target name true isFunction found)
      fun s a σ => (∀ x, found ≠ some (x, 0)) ∧ (a, σ) =
        if isFunction then (some (some (s.stage.define name).1), (s.stage.define name).2)
        else (some none, s.stage) := by
    rintro (_ | ⟨x, _ | depth⟩)
    · exact hnew.mono fun s a σ h => ⟨by simp, h⟩
    · exact quiet_complain_bind pos _ _
    · exact hnew.mono fun s a σ h => ⟨by simp, h⟩
  refine ((quiet_resolve name).bind hrest).mono ?_
  rintro s a σ ⟨r, σ1, ⟨rfl, rfl⟩, hzero, heq⟩
  refine ⟨fun x σ' h => hzero x ?_, heq⟩
  rw [h]
  rfl

theorem quiet_targetSymbol_use (pos : Pos) (target : Target) (name : String) (isFunction : Bool) :
    Quiet o (targetSymbol pos target name false isFunction) fun s a σ =>
      ∃ x depth, s.stage.resolve name = some (x, depth, σ) ∧ a = some (some x) := by
  have hrest : ∀ found, Quiet o (targetFrom pos target name false isFunction found)
      fun s a σ => ∃ x depth, found = some (x, depth) ∧ a = some (some x) ∧ σ = s.stage := by
    rintro (_ | ⟨x, _ | depth⟩)
    · exact quiet_complain_bind target.pos _ _
    · exact (Quiet.pure (some (some x))).mono fun _ _ _ h => ⟨x, 0, rfl, h.1, h.2⟩
    · exact (Quiet.pure (some (some x))).mono fun _ _ _ h => ⟨x, depth + 1, rfl, h.1, h.2⟩
  refine ((quiet_resolve name).bind hrest).mono ?_
  rintro s a σ ⟨r, σ1, ⟨rfl, rfl⟩, x, depth, hr, rfl, rfl⟩
  obtain ⟨⟨x', depth', σ2⟩, hresolve, heq⟩ := Option.map_eq_some_iff.1 hr
  obtain ⟨rfl, rfl⟩ := Prod.mk.inj heq
  refine ⟨x', depth', ?_, rfl⟩
  rw [stage_advance, Stage.lookedUp, hresolve]

theorem Expr.eq_ident_of_place? {name : String} (h : e.place? = some (name, 0)) : ∃ pos, e = .ident pos name := by
  cases e <;> simp_all [Expr.place?]

section

set_option linter.unusedSectionVars false

variable {importing : Pos → String → CompileM Unit}

/-- The target of an assignment to an expression. -/
def targetOf (importing : Pos → String → CompileM Unit) (e : Expr) : Target :=
  ⟨e.pos, e.place?, expr importing e, selectors importing e⟩

/-- The symbol of an assignment, defined now unless it is known. -/
def knownOr (name : String) : Option SymbolId → CompileM SymbolId
  | some id => Pure.pure id
  | none => define name

/-- The symbol of an assignment at a stage. -/
def Stage.knownOr (σ : Stage) (name : String) : Option SymbolId → SymbolId × Stage
  | some id => (id, σ)
  | none => σ.define name

theorem quiet_knownOr (name : String) (known : Option SymbolId) :
    Quiet o (knownOr name known) fun s a σ => (a, σ) = s.stage.knownOr name known := by
  cases known with
  | none => exact quiet_define name
  | some id =>
    refine (Quiet.pure id).mono ?_
    rintro s _ _ ⟨rfl, rfl⟩
    rfl

theorem makes_knownOr {k : SymbolId → CompileM Unit} {R : SymbolId → Context → Stage → Code → Stage → Prop}
    (hk : ∀ id, Meets o (k id) (Makes C (R id))) (name : String) (known : Option SymbolId) :
    Meets o (knownOr name known >>= k)
      (Makes C fun ctx σ c τ => R (σ.knownOr name known).1 ctx (σ.knownOr name known).2 c τ) := by
  refine ((quiet_knownOr name known).andThen hk).mono ?_
  rintro s _ c σ ⟨id, σ1, hknown, hR⟩ hstack
  have hR := hR hstack
  rw [context_advance] at hR
  rw [← hknown]
  exact hR

/-- What follows the look-up of the target of an assignment, which is nothing after a complaint. -/
def withTarget (f : Option SymbolId → CompileM Unit) : Option (Option SymbolId) → CompileM Unit
  | none => Pure.pure ()
  | some known => f known

/-- The target is known after the look-up. -/
theorem makes_withTarget {f : Option SymbolId → CompileM Unit} {T : CompileM (Option (Option SymbolId))}
    {Q : CompileState → Option (Option SymbolId) → Stage → Prop}
    {R : Option SymbolId → Context → Stage → Code → Stage → Prop} (hT : Quiet o T Q)
    (hf : ∀ known, Meets o (f known) (Makes C (R known))) : Meets o (T >>= withTarget f) fun s _ c τ =>
      ∃ a σ, Q s a σ ∧ ∀ known, a = some known → C s.importing → R known s.context σ c τ := by
  have hrest : ∀ a, Meets o (withTarget f a) fun s _ c σ => ∀ known, a = some known → Makes C (R known) s () c σ := by
    rintro (_ | known)
    · exact (Quiet.pure ()).toMeets.mono fun _ _ _ _ _ _ h => by cases h
    · refine (hf known).mono ?_
      rintro s a c σ h _ ⟨⟩
      exact h
  refine (hT.andThen hrest).mono ?_
  rintro s _ c τ ⟨a, σ, hQ, hR⟩
  refine ⟨a, σ, hQ, fun known ha hstack => ?_⟩
  have hR := hR known ha hstack
  rwa [context_advance] at hR

theorem meets_define (pos : Pos) (e1 e2 : Expr) (hvalue : Meets o value (Emits o C (.expr e2))) :
    Meets o (assign pos (targetOf importing e1) .define e2.isFunction value)
      (Emits o C (.stmt (.assign pos [e1] [e2] .define))) := by
  cases hplace : e1.place? with
  | none =>
    simp only [assign, targetOf, hplace]
    exact meets_complain _ _
  | some place =>
    obtain ⟨name, _ | n⟩ := place
    · obtain ⟨p, rfl⟩ := Expr.eq_ident_of_place? hplace
      have hsteps : assign pos (targetOf importing (.ident p name)) .define e2.isFunction value =
          targetSymbol pos (targetOf importing (.ident p name)) name true e2.isFunction >>= withTarget (fun known => do
            value
            knownOr name known >>= store pos true 0) := by
        refine congrArg (targetSymbol _ _ _ _ _ >>= ·) (funext ?_)
        rintro (_ | _ | id) <;> rfl
      rw [hsteps]
      refine (makes_withTarget (quiet_targetSymbol_define pos _ name e2.isFunction) fun known =>
        hvalue.then (makes_knownOr (makes_store pos true 0) name known)).mono ?_
      rintro s _ c τ ⟨r, σ0, ⟨hnew, hr⟩, hknown⟩ hstack
      cases hfunction : e2.isFunction <;> rw [hfunction] at hr <;> obtain ⟨rfl, rfl⟩ := Prod.mk.inj hr <;>
        obtain ⟨a, σ1, w, ha, hstore, rfl⟩ := hknown _ rfl hstack
      · exact .define hplace hnew ha hfunction hstore
      · exact .defineFunction hplace hnew ha hfunction hstore
    · simp only [assign, targetOf, hplace, Nat.zero_lt_succ, and_self, if_true]
      exact meets_complain _ _

theorem meets_assign (pos : Pos) (e1 e2 : Expr) (isFunction : Bool) (hvalue : Meets o value (Emits o C (.expr e2)))
    (hselectors : Meets o (selectors importing e1) (Emits o C (.selectors e1))) :
    Meets o (assign pos (targetOf importing e1) .assign isFunction value)
      (Emits o C (.stmt (.assign pos [e1] [e2] .assign))) := by
  cases hplace : e1.place? with
  | none =>
    simp only [assign, targetOf, hplace]
    exact meets_complain _ _
  | some place =>
    obtain ⟨name, n⟩ := place
    have hsteps : assign pos (targetOf importing e1) .assign isFunction value =
        targetSymbol pos (targetOf importing e1) name false isFunction >>= withTarget (fun known => do
          value
          knownOr name known >>= fun id => do
            selectors importing e1
            store pos false n id) := by
      simp only [assign, targetOf, hplace]
      refine congrArg (targetSymbol _ _ _ _ _ >>= ·) (funext ?_)
      rintro (_ | _ | id) <;> rfl
    rw [hsteps]
    refine (makes_withTarget (quiet_targetSymbol_use pos _ name isFunction) fun known => hvalue.then
      (makes_knownOr (fun id => hselectors.then (makes_store pos false n id)) name known)).mono ?_
    rintro s _ c τ ⟨r, σ0, ⟨x, depth, hresolve, rfl⟩, hknown⟩ hstack
    obtain ⟨a, σ1, _, ha, ⟨b, σ2, w, hb, hstore, rfl⟩, rfl⟩ := hknown _ rfl hstack
    exact .assign hplace hresolve ha hb hstore

theorem meets_combine (pos : Pos) (e1 e2 : Expr) (op : Operator) (isFunction : Bool)
    (hread : Meets o (expr importing e1) (Emits o C (.expr e1))) (hvalue : Meets o value (Emits o C (.expr e2)))
    (hselectors : Meets o (selectors importing e1) (Emits o C (.selectors e1))) :
    Meets o (assign pos (targetOf importing e1) (.combine op) isFunction value)
      (Emits o C (.stmt (.assign pos [e1] [e2] (.combine op)))) := by
  cases hplace : e1.place? with
  | none =>
    simp only [assign, targetOf, hplace]
    exact meets_complain _ _
  | some place =>
    obtain ⟨name, n⟩ := place
    have hsteps : assign pos (targetOf importing e1) (.combine op) isFunction value =
        targetSymbol pos (targetOf importing e1) name false isFunction >>= withTarget (fun known => do
          expr importing e1
          value
          knownOr name known >>= fun id => do
            emit pos .binary [op.code]
            selectors importing e1
            store pos false n id) := by
      simp only [assign, targetOf, hplace]
      refine congrArg (targetSymbol _ _ _ _ _ >>= ·) (funext ?_)
      rintro (_ | _ | id) <;> rfl
    rw [hsteps]
    refine (makes_withTarget (quiet_targetSymbol_use pos _ name isFunction) fun known => hread.then (hvalue.then
      (makes_knownOr (fun id => (makes_emit pos .binary [op.code]).then
        (hselectors.then (makes_store pos false n id))) name known))).mono ?_
    rintro s _ k τ ⟨r, σ0, ⟨x, depth, hresolve, rfl⟩, hknown⟩ hstack
    obtain ⟨c, σ1, _, hc, ⟨a, σ2, _, ha, ⟨_, σ3, _, ⟨rfl, rfl⟩, ⟨b, σ4, w, hb, hstore, rfl⟩, rfl⟩, rfl⟩, rfl⟩ :=
      hknown _ rfl hstack
    exact .combine hplace hresolve hc ha hb hstore

/-! ### Loops -/

theorem meets_test (pos : Pos) {P : CompileState → Unit → Code → Stage → Prop} (hm : Meets o m P) :
    Meets o (do m; return some (← emitJump pos .jumpFalsy))
      (Tests pos true fun s c σ => P s () c σ) := by
  intro s hclean
  obtain ⟨hs, c, σ, hP, heq⟩ := hm s hclean
  refine ⟨hs, c.seq (.instr pos .jumpFalsy [0]), σ, ⟨c, hP, rfl, ?_⟩, ?_⟩
  · show some (m o s).2.draft.code.size = _
    rw [heq, draft_advance, Draft.size_plus]
    rfl
  · show { (m o s).2 with draft := (m o s).2.draft.emit pos .jumpFalsy [0] } = _
    rw [heq, Draft.emit_eq_plus, ← advance_advance s c _ σ σ]
    rfl

theorem iteration_eq (pos : Pos) (key : Ident) (value : Option Ident) (iterable body : CompileM Unit) :
    iteration pos key value iterable body = inBlock (do
      let it ← define ":it"
      iterable
      emit pos .iterInit
      bindLoopVariable pos it
      CompileM.loop pos (do
          load pos it
          emit pos .iterNext
          return some (← emitJump pos .jumpFalsy)) (Pure.pure ()) (do
        bindItems pos it key value
        body)) := by
  cases value <;> rfl

theorem meets_iteration (pos : Pos) (key : Ident) (value : Option Ident) (e : Expr) (body : Block)
    {iterable inside : CompileM Unit} (hiterable : Meets o iterable (Emits o C (.expr e)))
    (hinside : Meets o inside (Emits o C (.block body))) :
    Meets o (iteration pos key value iterable inside)
      (Emits o C (.stmt (.forIn pos key value e body))) := by
  have hload := fun it => (meets_load (o := o) pos it).makes (C := C) (R := fun _ σ c τ =>
    (σ.symbol it).Fits ∧ c = .load pos (σ.symbol it) ∧ τ = σ)
  have hbind := fun it => (meets_bindLoopVariable (o := o) pos it).makes (C := C)
    (R := fun _ σ c τ => σ.bind pos it = some (c, τ))
  have hitems := fun it => (meets_bindItems (o := o) pos it key value).makes (C := C)
    (R := fun _ σ c τ => σ.bindItems pos it key value = some (c, τ))
  have hnothing := makes_nothing (o := o) (C := C) (R := fun _ σ c τ => c = .nop ∧ τ = σ) fun _ _ => ⟨rfl, rfl⟩
  rw [iteration_eq]
  refine (makes_inBlock (makes_knownOr (fun it => hiterable.then ((makes_emit pos .iterInit []).then ((hbind it).then
    (makes_loop pos true (meets_test pos ((hload it).then (makes_emit pos .iterNext [])))
      ((hitems it).then hinside) hnothing)))) ":it" none)).making ?_
  rintro ctx σ _ _ ⟨_, ⟨a, σ2, _, ha, ⟨_, _, _, ⟨rfl, rfl⟩, ⟨b, σ3, _, hb, ⟨_, _, _, _, _,
    ⟨_, _, _, ⟨hfits, rfl, rfl⟩, ⟨rfl, rfl⟩, rfl⟩, ⟨c, σ4, d, hc, hd, rfl⟩, ⟨rfl, rfl⟩, rfl⟩, rfl⟩, rfl⟩, rfl⟩, rfl⟩
  exact .forIn rfl ha hb hfits hc hd

/-! ### Syntax trees -/

/-- A statement whose code never leaves the block around it. -/
theorem meets_returnFalse (hm : Meets o m (Emits o C (.stmt s))) (hleaves : ∀ kind, s.leaves kind = false) :
    Meets o (do m; return false) (EmitsAll o C (.stmt s) (s.leaves ·)) := by
  refine (hm.thenQuiet fun _ => Quiet.pure false).mono ?_
  rintro t _ c σ ⟨_, σ1, ha, rfl, rfl⟩ hstack
  exact ⟨(hleaves _).symm, ha hstack⟩

theorem meets_discard {m : CompileM Bool} {φ : Phrase} {leaves : BodyKind → Bool}
    (hm : Meets o m (EmitsAll o C φ leaves)) : Meets o (discard m) (Emits o C φ) := by
  intro s hclean
  obtain ⟨hs, c, σ, hP, heq⟩ := hm s hclean
  exact ⟨hs, c, σ, fun hstack => (hP hstack).2, heq⟩

/-- Statements after a first one; nothing is appended after one that leaves the block. -/
theorem meets_andThenStmts {m k : CompileM Bool} {rest : List Stmt}
    (hm : Meets o m (EmitsAll o C (.stmt s) (s.leaves ·)))
    (hk : Meets o k (EmitsAll o C (.stmts rest) (Stmt.anyLeaves · rest))) : Meets o (do
      if ← m then return true
      k) (EmitsAll o C (.stmts (s :: rest)) (Stmt.anyLeaves · (s :: rest))) := by
  have hrest : ∀ a : Bool, Meets o (if a then Pure.pure true else k) fun t b c σ =>
      if a then b = true ∧ c = .nop ∧ σ = t.stage
      else EmitsAll o C (.stmts rest) (Stmt.anyLeaves · rest) t b c σ := by
    intro a
    cases a with
    | true => exact (Quiet.pure true).toMeets.mono fun _ _ _ _ h => ⟨h.2.1, h.1, h.2.2⟩
    | false => exact hk
  intro t hclean
  obtain ⟨ht, _, σ, ⟨a, c1, σ1, c2, h1, h2, rfl⟩, heq⟩ := (hm.bind hrest) t hclean
  cases a with
  | true =>
    obtain ⟨hb, rfl, rfl⟩ := h2
    rw [advance_seq_nop] at heq
    refine ⟨ht, c1, σ1, fun hstack => ?_, heq⟩
    obtain ⟨hleaves, hstmt⟩ : true = s.leaves t.context.kind ∧ _ := h1 hstack
    refine ⟨?_, .stmtsLast hleaves.symm hstmt⟩
    show _ = (s.leaves _ || Stmt.anyLeaves _ rest)
    rw [← hleaves]
    exact hb
  | false =>
    refine ⟨ht, c1.seq c2, σ, fun hstack => ?_, heq⟩
    obtain ⟨hleaves, hstmt⟩ : false = s.leaves t.context.kind ∧ _ := h1 hstack
    obtain ⟨hb, hrest⟩ := h2 hstack
    rw [context_advance] at hb hrest
    refine ⟨?_, .stmtsCons hleaves.symm hstmt hrest⟩
    show _ = (s.leaves _ || Stmt.anyLeaves _ rest)
    rw [← hleaves]
    exact hb

theorem meets_literal {pos : Pos} {v : Value} (hliteral : e.literal? = some (pos, v)) :
    Meets o (emitConstant pos v) (Emits o C (.expr e)) := by
  refine (makes_emitConstant pos _).making ?_
  rintro ctx σ _ _ ⟨hroom, rfl, rfl⟩
  exact .literal hliteral hroom

/-- Pushes the value of a name, given what its look-up found. -/
def loadFound (pos : Pos) (name : String) : Option (SymbolId × Nat) → CompileM Unit
  | some (id, _) => load pos id
  | none => complain pos (.unresolved name)

theorem meets_loadFound (pos : Pos) (name : String) (found : Option (SymbolId × Nat)) :
    Meets o (loadFound pos name found) fun s _ c σ => ∃ x depth, found = some (x, depth) ∧
      (s.stage.symbol x).Fits ∧ c = .load pos (s.stage.symbol x) ∧ σ = s.stage := by
  rcases found with _ | ⟨x, depth⟩
  · exact meets_complain pos _
  · exact (meets_load pos x).mono fun _ _ _ _ h => ⟨x, depth, rfl, h⟩

variable (himport : ∀ pos name, Meets o (importing pos name) (Emits o C (.expr (.importModule pos name))))

include himport

mutual

theorem meets_expr : ∀ e : Expr, Meets o (expr importing e) (Emits o C (.expr e))
  | .ident pos name => by
    refine ((quiet_resolve name).andThen (meets_loadFound pos name)).mono ?_
    rintro s _ c σ ⟨r, σ1, ⟨rfl, rfl⟩, x, depth, hr, hfits, rfl, rfl⟩ _
    obtain ⟨⟨x', depth', σ2⟩, hresolve, heq⟩ := Option.map_eq_some_iff.1 hr
    obtain ⟨rfl, rfl⟩ := Prod.mk.inj heq
    rw [stage_advance, Stage.lookedUp, hresolve] at hfits ⊢
    exact .ident hresolve hfits
  | .int _ _ | .float _ _ | .char _ _ | .str _ _ => meets_literal rfl
  | .bool pos value => by
    refine (makes_emit pos _ []).making ?_
    rintro ctx σ _ _ ⟨rfl, rfl⟩
    exact .bool
  | .undefined pos => by
    refine (makes_emit pos _ []).making ?_
    rintro ctx σ _ _ ⟨rfl, rfl⟩
    exact .undefined
  | .array pos items => by
    refine ((meets_exprs items).then (makes_counted pos _ _ _ .array [])).making ?_
    rintro ctx σ _ _ ⟨a, σ1, _, ha, ⟨hcount, rfl, rfl⟩, rfl⟩
    exact .array ha hcount
  | .map pos items => by
    refine ((meets_entries items).then (makes_counted pos _ _ _ .map [])).making ?_
    rintro ctx σ _ _ ⟨a, σ1, _, ha, ⟨hcount, rfl, rfl⟩, rfl⟩
    exact .map ha hcount
  | .binary pos lhs op rhs => by
    have hinstr : ∀ opcode operands, op.instruction? = some (opcode, operands) → Meets o (do
        expr importing lhs
        expr importing rhs
        emit pos opcode operands) (Emits o C (.expr (.binary pos lhs op rhs))) := by
      intro opcode operands hop
      refine ((meets_expr lhs).then ((meets_expr rhs).then (makes_emit pos opcode operands))).making ?_
      rintro ctx σ _ _ ⟨a, σ1, _, ha, ⟨b, σ2, _, hb, ⟨rfl, rfl⟩, rfl⟩, rfl⟩
      exact .binary hop ha hb
    cases op with
    | arith op => exact hinstr .binary [op.code] rfl
    | equal => exact hinstr .equal [] rfl
    | notEqual => exact hinstr .notEqual [] rfl
    | logicalAnd =>
      refine ((meets_expr lhs).then (makes_skip pos .logicalAnd (meets_expr rhs))).making ?_
      rintro ctx σ _ _ ⟨a, σ1, _, ha, ⟨b, hb, rfl⟩, rfl⟩
      exact .logical rfl ha hb
    | logicalOr =>
      refine ((meets_expr lhs).then (makes_skip pos .logicalOr (meets_expr rhs))).making ?_
      rintro ctx σ _ _ ⟨a, σ1, _, ha, ⟨b, hb, rfl⟩, rfl⟩
      exact .logical rfl ha hb
  | .unary pos op operand => by
    have hinstr : ∀ opcode, op.instruction? = some opcode →
        Meets o (do expr importing operand; emit pos opcode) (Emits o C (.expr (.unary pos op operand))) := by
      intro opcode hop
      refine ((meets_expr operand).then (makes_emit pos opcode [])).making ?_
      rintro ctx σ _ _ ⟨a, σ1, _, ha, ⟨rfl, rfl⟩, rfl⟩
      exact .unary hop ha
    cases op with
    | negate => exact hinstr .negate rfl
    | logicalNot => exact hinstr .logicalNot rfl
    | complement => exact hinstr .complement rfl
    | plus => exact (meets_expr operand).making fun _ _ _ _ h => Lowers.plus h
  | .call pos callee args spread => by
    refine ((meets_expr callee).then ((meets_exprs args).then
      (makes_counted pos _ _ _ .call [spread.toNat]))).making ?_
    rintro ctx σ _ _ ⟨a, σ1, _, ha, ⟨b, σ2, _, hb, ⟨hcount, rfl, rfl⟩, rfl⟩, rfl⟩
    exact .call ha hb hcount
  | .index pos target key => by
    refine ((meets_expr target).then ((meets_expr key).then (makes_emit pos .index []))).making ?_
    rintro ctx σ _ _ ⟨a, σ1, _, ha, ⟨b, σ2, _, hb, ⟨rfl, rfl⟩, rfl⟩, rfl⟩
    exact .index ha hb
  | .select pos target key => by
    refine ((meets_expr target).then ((makes_emitConstant pos (.string key)).then
      (makes_emit pos .index []))).making ?_
    rintro ctx σ _ _ ⟨a, σ1, _, ha, ⟨b, σ2, _, ⟨hroom, rfl, rfl⟩, ⟨rfl, rfl⟩, rfl⟩, rfl⟩
    exact .select ha hroom
  | .slice pos target low high => by
    refine ((meets_expr target).then ((meets_bound pos low).then ((meets_bound pos high).then
      (makes_emit pos .slice [])))).making ?_
    rintro ctx σ _ _ ⟨a, σ1, _, ha, ⟨b, σ2, _, hb, ⟨c, σ3, _, hc, ⟨rfl, rfl⟩, rfl⟩, rfl⟩, rfl⟩
    exact .slice ha hb hc
  | .cond pos c yes no => by
    refine ((meets_expr c).then (makes_choose pos (meets_expr yes) (meets_expr no))).making ?_
    rintro ctx σ _ _ ⟨a, σ1, _, ha, ⟨b, σ2, c, hb, hc, rfl⟩, rfl⟩
    exact .cond ha hb hc
  | .func pos params variadic body => meets_functionLiteral pos params variadic body (meets_block body)
  | .error pos value => by
    refine ((meets_expr value).then (makes_emit pos .error [])).making ?_
    rintro ctx σ _ _ ⟨a, σ1, _, ha, ⟨rfl, rfl⟩, rfl⟩
    exact .error ha
  | .immutable pos value => by
    refine ((meets_expr value).then (makes_emit pos .freeze [])).making ?_
    rintro ctx σ _ _ ⟨a, σ1, _, ha, ⟨rfl, rfl⟩, rfl⟩
    exact .immutable ha
  | .importModule pos name => himport pos name
  | .paren pos inner => (meets_expr inner).making fun _ _ _ _ h => Lowers.paren h
  | .bad pos message => meets_complain pos _

theorem meets_exprs : ∀ es : List Expr, Meets o (exprs importing es) (Emits o C (.exprs es))
  | [] => makes_nothing fun _ _ => .exprsNil
  | e :: rest => by
    refine ((meets_expr e).then (meets_exprs rest)).making ?_
    rintro ctx σ _ _ ⟨a, σ1, b, ha, hb, rfl⟩
    exact .exprsCons ha hb

theorem meets_entries : ∀ es : List MapEntry, Meets o (entries importing es) (Emits o C (.entries es))
  | [] => makes_nothing fun _ _ => .entriesNil
  | .mk key keyPos value :: rest => by
    refine ((makes_emitConstant keyPos (.string key)).then
      ((meets_expr value).then (meets_entries rest))).making ?_
    rintro ctx σ _ _ ⟨_, σ1, _, ⟨hroom, rfl, rfl⟩, ⟨a, σ2, b, ha, hb, rfl⟩, rfl⟩
    exact .entriesCons hroom ha hb

theorem meets_bound (pos : Pos) : ∀ e : Option Expr, Meets o (bound importing pos e) (Emits o C (.bound pos e))
  | some e => (meets_expr e).making fun _ _ _ _ h => Lowers.boundSome h
  | none => (makes_emit pos .pushUndefined []).making fun _ _ _ _ h => by
    rw [h.1, h.2]
    exact .boundNone

theorem meets_selectors : ∀ e : Expr, Meets o (selectors importing e) (Emits o C (.selectors e))
  | .select pos target key => by
    refine ((makes_emitConstant pos (.string key)).then (meets_selectors target)).making ?_
    rintro ctx σ _ _ ⟨_, σ1, a, ⟨hroom, rfl, rfl⟩, ha, rfl⟩
    exact .selectorsSelect hroom ha
  | .index _ target key => by
    refine ((meets_expr key).then (meets_selectors target)).making ?_
    rintro ctx σ _ _ ⟨a, σ1, b, ha, hb, rfl⟩
    exact .selectorsIndex ha hb
  | .ident .. | .int .. | .float .. | .char .. | .str .. | .bool .. | .undefined .. | .array .. | .map ..
  | .binary .. | .unary .. | .call .. | .slice .. | .cond .. | .func .. | .error .. | .immutable ..
  | .importModule .. | .paren .. | .bad .. =>
    makes_nothing fun _ _ => .selectorsEnd (fun _ _ _ h => by cases h) fun _ _ _ h => by cases h

theorem meets_stmt : ∀ s : Stmt, Meets o (stmt importing s) (EmitsAll o C (.stmt s) (s.leaves ·))
  | .expr pos e => by
    refine meets_returnFalse (((meets_expr e).then (makes_emit pos .pop [])).making ?_) fun _ => rfl
    rintro ctx σ _ _ ⟨a, σ1, _, ha, ⟨rfl, rfl⟩, rfl⟩
    exact .exprStmt ha
  | .assign pos [target] [value] op => by
    refine meets_returnFalse ?_ fun _ => rfl
    cases op with
    | define => exact meets_define pos target value (meets_expr value)
    | assign => exact meets_assign pos target value _ (meets_expr value) (meets_selectors target)
    | combine op => 
      exact meets_combine pos target value op _ (meets_expr target) (meets_expr value) (meets_selectors target)
  | .assign pos [] _ _ | .assign pos (_ :: _ :: _) _ _ | .assign pos [_] [] _
  | .assign pos [_] (_ :: _ :: _) _ => meets_complain_bind pos _ false
  | .incDec pos target up => by
    refine meets_returnFalse (m := assign pos (targetOf importing target) _ false _) ?_ fun _ => rfl
    refine (meets_combine pos target (.int pos 1) _ false (meets_expr target) (meets_literal rfl)
      (meets_selectors target)).making ?_
    intro ctx σ c τ h
    exact Lowers.incDec h
  | .block pos body => (meets_block body).mono fun s a c σ h hstack => ⟨(h hstack).1, .blockStmt (h hstack).2⟩
  | .ifThen pos init c body none => by
    refine meets_returnFalse ((makes_inBlock ((meets_optional init).then ((meets_expr c).then
      (makes_skip pos .onFalsy (meets_discard (meets_block body)))))).making ?_) fun _ => rfl
    rintro ctx σ _ _ ⟨_, ⟨a, σ1, _, ha, ⟨b, σ2, _, hb, ⟨d, hd, rfl⟩, rfl⟩, rfl⟩, rfl⟩
    exact .ifThen ha hb hd
  | .ifThen pos init c body (some other) => by
    refine meets_returnFalse ((makes_inBlock ((meets_optional init).then ((meets_expr c).then
      (makes_choose pos (meets_discard (meets_block body)) (meets_discard (meets_stmt other)))))).making
        ?_) fun _ => rfl
    rintro ctx σ _ _ ⟨_, ⟨a, σ1, _, ha, ⟨b, σ2, _, hb, ⟨d, σ3, e, hd, he, rfl⟩, rfl⟩, rfl⟩, rfl⟩
    exact .ifElse ha hb hd he
  | .loop pos init c post body => by
    refine meets_returnFalse ((makes_inBlock ((meets_optional init).then
      (makes_loop pos c.isSome (meets_condition pos c) (meets_discard (meets_block body))
        (meets_optional post)))).making ?_) fun _ => rfl
    rintro ctx σ _ _ ⟨_, ⟨a, σ1, _, ha, ⟨b, σ2, d, σ3, e, hb, hd, he, rfl⟩, rfl⟩, rfl⟩
    exact .loop ha hb hd he
  | .forIn pos key value iterable body =>
    meets_returnFalse (meets_iteration pos key value iterable body (meets_expr iterable)
      (meets_discard (meets_block body))) fun _ => rfl
  | .breakLoop pos => (meets_branch pos true).mono fun s a c σ ⟨ha, hloop, hc, hσ⟩ _ => by
    rw [ha, hc, hσ]
    exact ⟨rfl, .breakLoop hloop⟩
  | .continueLoop pos => (meets_branch pos false).mono fun s a c σ ⟨ha, hloop, hc, hσ⟩ _ => by
    rw [ha, hc, hσ]
    exact ⟨rfl, .continueLoop hloop⟩
  | .ret pos (some value) => (meets_returnFrom_some pos (meets_expr value)).mono
    fun s a c σ ⟨v, ha, hkind, hv, hc⟩ hstack => by
      rw [ha, hc]
      exact ⟨rfl, .retValue hkind (hv hstack)⟩
  | .ret pos none => (meets_returnFrom_none pos).mono fun s a c σ ⟨ha, hkind, hc, hσ⟩ _ => by
    rw [ha, hc, hσ]
    exact ⟨rfl, .ret hkind⟩
  | .exportValue pos value => by
    refine (meets_exportFrom pos (meets_expr value)).mono ?_
    rintro s a c σ (⟨rfl, hkind, rfl, rfl⟩ | ⟨v, rfl, hkind, hv, rfl⟩) hstack
    · exact ⟨by simp [Stmt.leaves, hkind], .exportMain hkind⟩
    · exact ⟨by simp [Stmt.leaves, hkind], .exportModule hkind (hv hstack)⟩
  | .empty pos => (Quiet.pure false).toMeets.mono fun s a c σ ⟨hc, ha, hσ⟩ _ => by
    rw [ha, hc, hσ]
    exact ⟨rfl, .empty⟩
  | .bad pos message => meets_complain_bind pos _ false

theorem meets_optional : ∀ s : Option Stmt, Meets o (optional importing s) (Emits o C (.optional s))
  | some s => (meets_discard (meets_stmt s)).making fun _ _ _ _ h => Lowers.optionalSome h
  | none => makes_nothing fun _ _ => .optionalNone

theorem meets_condition (pos : Pos) : ∀ e : Option Expr, Meets o (condition importing pos e)
    (Tests pos e.isSome fun s c σ => Emits o C (.condition e) s () c σ)
  | some e => meets_test pos ((meets_expr e).making fun _ _ _ _ h => Lowers.conditionSome h)
  | none => by
    intro s hclean
    refine ⟨hclean, Code.nop.seq .nop, s.stage, ⟨.nop, fun _ => .conditionNone, rfl, rfl⟩, ?_⟩
    rw [advance_seq_nop, advance_nop_stage]
    rfl

theorem meets_stmts : ∀ ss : List Stmt, Meets o (stmts importing ss) (EmitsAll o C (.stmts ss) (Stmt.anyLeaves · ss))
  | [] => (Quiet.pure false).toMeets.mono fun s a c σ ⟨hc, ha, hσ⟩ _ => by
    rw [ha, hc, hσ]
    exact ⟨rfl, .stmtsNil⟩
  | s :: rest => meets_andThenStmts (meets_stmt s) (meets_stmts rest)

theorem meets_block : ∀ b : Block, Meets o (block importing b) (EmitsAll o C (.block b) (b.leaves ·))
  | .mk pos ss => by
    have hstmts := meets_stmts ss
    cases ss with
    | nil =>
      refine (Quiet.pure false).toMeets.mono ?_
      rintro t _ _ _ ⟨rfl, rfl, rfl⟩ _
      exact ⟨rfl, .blockNil⟩
    | cons s rest =>
      refine (meets_inBlock hstmts).mono ?_
      rintro t a c σ ⟨σ1, ha, rfl⟩ hstack
      obtain ⟨hleaves, hbody⟩ := ha hstack
      rw [context_advance] at hleaves hbody
      exact ⟨hleaves, .block (List.cons_ne_nil s rest) hbody⟩

end

end

end ScriptEngine
