import ScriptEngine.Proofs.Compiler.Lowering
/-!
# Compiling without complaints

What the actions of a compilation do when nothing is complained about. `Meets` says of an action
that it appends code to the draft and moves from one stage to another; `Quiet` says of one that it
appends none. Both also say that complaints are never taken back, so that a compilation without
complaints in the end had none on the way.
-/

namespace ScriptEngine

open CompileState

namespace CompileState

/-- What is known apart from code and complaints. -/
def stage (s : CompileState) : Stage := ⟨s.symbols, s.scope, s.constants, s.functions, s.imported⟩

/-- What the code at hand is part of. -/
def context (s : CompileState) : Context := ⟨s.draft.kind, !s.draft.loops.isEmpty, s.importing⟩

/-- Nothing was complained about. -/
def Clean (s : CompileState) : Prop := s.diagnostics = #[]

/-- The state at another stage, with more code. -/
def advance (s : CompileState) (c : Code) (σ : Stage) : CompileState :=
  { s with
    symbols := σ.symbols, scope := σ.scope, constants := σ.constants, functions := σ.functions
    imported := σ.imported, draft := s.draft.plus c }

variable (s : CompileState)

@[simp]
theorem stage_advance (c : Code) (σ : Stage) : (s.advance c σ).stage = σ := rfl

@[simp]
theorem context_advance (c : Code) (σ : Stage) : (s.advance c σ).context = s.context := by
  simp [context, advance]

@[simp]
theorem draft_advance (c : Code) (σ : Stage) : (s.advance c σ).draft = s.draft.plus c := rfl

theorem advance_nop_stage : s.advance .nop s.stage = s := by
  simp [advance, stage]

theorem advance_advance (a b : Code) (σ1 σ2 : Stage) : (s.advance a σ1).advance b σ2 = s.advance (a.seq b) σ2 := by
  simp [advance, Draft.plus_seq]

theorem advance_nop_advance (c : Code) (σ1 σ2 : Stage) : (s.advance .nop σ1).advance c σ2 = s.advance c σ2 := by
  simp [advance]

theorem advance_advance_nop (c : Code) (σ1 σ2 : Stage) : (s.advance c σ1).advance .nop σ2 = s.advance c σ2 := by
  simp [advance]

theorem advance_seq_nop (c : Code) (σ : Stage) : s.advance (c.seq .nop) σ = s.advance c σ := by
  simp [advance, Draft.plus_seq]

end CompileState

section

variable {o : CompileOptions} {α β : Type}

/-- If there are no complaints after the action, there were none before, and the action appends code
and moves to a stage as `P` says. -/
def Meets (o : CompileOptions) (m : CompileM α) (P : CompileState → α → Code → Stage → Prop) : Prop :=
  ∀ s, (m o s).2.Clean → s.Clean ∧ ∃ c σ, P s (m o s).1 c σ ∧ (m o s).2 = s.advance c σ

/-- The same for an action that appends no code. -/
def Quiet (o : CompileOptions) (m : CompileM α) (P : CompileState → α → Stage → Prop) : Prop :=
  ∀ s, (m o s).2.Clean → s.Clean ∧ ∃ σ, P s (m o s).1 σ ∧ (m o s).2 = s.advance .nop σ

/-! ### Sequences -/

theorem Meets.mono {m : CompileM α} {P Q : CompileState → α → Code → Stage → Prop} (hm : Meets o m P)
    (h : ∀ s a c σ, P s a c σ → Q s a c σ) : Meets o m Q := by
  intro s hclean
  obtain ⟨hs, c, σ, hP, heq⟩ := hm s hclean
  exact ⟨hs, c, σ, h _ _ _ _ hP, heq⟩

theorem Quiet.mono {m : CompileM α} {P Q : CompileState → α → Stage → Prop} (hm : Quiet o m P)
    (h : ∀ s a σ, P s a σ → Q s a σ) : Quiet o m Q := by
  intro s hclean
  obtain ⟨hs, σ, hP, heq⟩ := hm s hclean
  exact ⟨hs, σ, h _ _ _ hP, heq⟩

theorem Quiet.toMeets {m : CompileM α} {P : CompileState → α → Stage → Prop} (hm : Quiet o m P) :
    Meets o m fun s a c σ => c = .nop ∧ P s a σ := by
  intro s hclean
  obtain ⟨hs, σ, hP, heq⟩ := hm s hclean
  exact ⟨hs, .nop, σ, ⟨rfl, hP⟩, heq⟩

theorem Quiet.pure (a : α) : Quiet o (Pure.pure a) fun s b σ => b = a ∧ σ = s.stage := by
  intro s hclean
  exact ⟨hclean, s.stage, ⟨rfl, rfl⟩, s.advance_nop_stage.symm⟩

theorem Meets.bind {m : CompileM α} {f : α → CompileM β} {P : CompileState → α → Code → Stage → Prop}
    {Q : α → CompileState → β → Code → Stage → Prop} (hm : Meets o m P) (hf : ∀ a, Meets o (f a) (Q a)) :
    Meets o (m >>= f) fun s b c σ => ∃ a c1 σ1 c2, P s a c1 σ1 ∧ Q a (s.advance c1 σ1) b c2 σ ∧
      c = c1.seq c2 := by
  intro s hclean
  obtain ⟨hs1, c2, σ2, hQ, heq2⟩ := hf (m o s).1 (m o s).2 hclean
  obtain ⟨hs, c1, σ1, hP, heq1⟩ := hm s hs1
  rw [heq1] at heq2 hQ
  refine ⟨hs, c1.seq c2, σ2, ⟨_, c1, σ1, c2, hP, ?_, rfl⟩, ?_⟩
  · show Q (m o s).1 _ (f (m o s).1 o (m o s).2).1 c2 σ2
    rw [heq1]
    exact hQ
  · show (f (m o s).1 o (m o s).2).2 = _
    rw [heq1, heq2, advance_advance]

theorem Quiet.andThen {m : CompileM α} {f : α → CompileM β} {P : CompileState → α → Stage → Prop}
    {Q : α → CompileState → β → Code → Stage → Prop} (hm : Quiet o m P) (hf : ∀ a, Meets o (f a) (Q a)) :
    Meets o (m >>= f) fun s b c σ => ∃ a σ1, P s a σ1 ∧ Q a (s.advance .nop σ1) b c σ := by
  intro s hclean
  obtain ⟨hs, c, σ, ⟨a, c1, σ1, c2, ⟨rfl, hP⟩, hQ, rfl⟩, heq⟩ := (hm.toMeets.bind hf) s hclean
  refine ⟨hs, c2, σ, ⟨a, σ1, hP, hQ⟩, ?_⟩
  rw [heq, ← advance_advance s .nop c2 σ1 σ, advance_nop_advance]

theorem Meets.thenQuiet {m : CompileM α} {f : α → CompileM β}
    {P : CompileState → α → Code → Stage → Prop} {Q : α → CompileState → β → Stage → Prop}
    (hm : Meets o m P) (hf : ∀ a, Quiet o (f a) (Q a)) :
    Meets o (m >>= f) fun s b c σ => ∃ a σ1, P s a c σ1 ∧ Q a (s.advance c σ1) b σ := by
  intro s hclean
  obtain ⟨hs, c, σ, ⟨a, c1, σ1, c2, hP, ⟨rfl, hQ⟩, rfl⟩, heq⟩ :=
    (hm.bind fun a => (hf a).toMeets) s hclean
  refine ⟨hs, c1, σ, ⟨a, σ1, hP, hQ⟩, ?_⟩
  rw [heq, ← advance_advance s c1 .nop σ1 σ, advance_advance_nop]

theorem Quiet.bind {m : CompileM α} {f : α → CompileM β} {P : CompileState → α → Stage → Prop}
    {Q : α → CompileState → β → Stage → Prop} (hm : Quiet o m P) (hf : ∀ a, Quiet o (f a) (Q a)) :
    Quiet o (m >>= f) fun s b σ => ∃ a σ1, P s a σ1 ∧ Q a (s.advance .nop σ1) b σ := by
  intro s hclean
  obtain ⟨hs, _, σ, ⟨a, σ1, hP, rfl, hQ⟩, heq⟩ := (hm.andThen fun a => (hf a).toMeets) s hclean
  exact ⟨hs, σ, ⟨a, σ1, hP, hQ⟩, heq⟩

theorem Meets.ite {p : Prop} [Decidable p] {a b : CompileM α}
    {P : CompileState → α → Code → Stage → Prop} (ha : p → Meets o a P) (hb : ¬ p → Meets o b P) :
    Meets o (if p then a else b) P := by
  split
  · next h => exact ha h
  · next h => exact hb h

/-! ### Single actions -/

open CompileM

theorem quiet_get : Quiet o (get) fun s a σ => a = s ∧ σ = s.stage := by
  intro s hclean
  exact ⟨hclean, s.stage, ⟨rfl, rfl⟩, s.advance_nop_stage.symm⟩

section

variable (pos : Pos)

section

variable (c : Complaint)

/-- There are complaints after one was made, also when it was only counted. -/
theorem quiet_complain : Quiet o (complain pos c) fun _ _ _ => False := by
  intro s hclean
  have hstate : (complain pos c o s).2 =
      if o.maxErrors = 0 ∨ s.diagnostics.size < o.maxErrors then
        { s with diagnostics := s.diagnostics.push { complaint := c, location := s.files.locate pos } }
      else { s with overflow := s.overflow + 1 } := rfl
  rw [hstate] at hclean
  split at hclean
  · simp [CompileState.Clean] at hclean
  · next hcap =>
    simp only [CompileState.Clean] at hclean
    simp only [hclean, List.size_toArray, List.length_nil] at hcap
    omega

theorem meets_complain {P : CompileState → Unit → Code → Stage → Prop} : Meets o (complain pos c) P :=
  (quiet_complain pos c).toMeets.mono fun _ _ _ _ h => h.2.elim

/-- Nothing follows from a complaint, because there are none. -/
theorem quiet_complain_bind (a : α) {P : CompileState → α → Stage → Prop} :
    Quiet o (do complain pos c; Pure.pure a) P := by
  refine ((quiet_complain pos c).bind fun _ => Quiet.pure a).mono ?_
  rintro s _ σ ⟨_, _, h, _⟩
  exact h.elim

theorem meets_complain_bind (a : α)
    {P : CompileState → α → Code → Stage → Prop} : Meets o (do complain pos c; Pure.pure a) P :=
  (quiet_complain_bind pos c a (P := fun _ _ _ => False)).toMeets.mono fun _ _ _ _ h => h.2.elim

end

theorem emit_eq (o : CompileOptions) (op : Opcode) (operands : List Nat) (s : CompileState) :
    (emit pos op operands o s).2 = s.advance (.instr pos op operands) s.stage := by
  show { s with draft := s.draft.emit pos op operands } = _
  rw [Draft.emit_eq_plus]
  rfl

theorem meets_emit (op : Opcode) (operands : List Nat) :
    Meets o (emit pos op operands) fun s _ c σ => c = .instr pos op operands ∧ σ = s.stage := fun s hclean =>
  ⟨hclean, .instr pos op operands, s.stage, ⟨rfl, rfl⟩, emit_eq pos o op operands s⟩

end

theorem quiet_onSymbols (f : SymbolTable → α × SymbolTable) :
    Quiet o (onSymbols f) fun s a σ =>
      a = (f s.symbols).1 ∧ σ = { s.stage with symbols := (f s.symbols).2 } := by
  intro s hclean
  refine ⟨hclean, _, ⟨rfl, rfl⟩, ?_⟩
  rw [advance, Draft.plus_nop]
  rfl

theorem quiet_symbol (id : SymbolId) : Quiet o (symbol id) fun s a σ => a = s.stage.symbol id ∧ σ = s.stage := by
  intro s hclean
  exact ⟨hclean, s.stage, ⟨rfl, rfl⟩, s.advance_nop_stage.symm⟩

theorem quiet_define (name : String) : Quiet o (define name) fun s a σ => (a, σ) = s.stage.define name := by
  refine (quiet_get.bind fun s => quiet_onSymbols (·.define s.scope name)).mono ?_
  rintro s a σ ⟨_, σ1, ⟨rfl, rfl⟩, rfl, rfl⟩
  rfl

theorem quiet_markAssigned (id : SymbolId) : Quiet o (markAssigned id) fun s _ σ => σ = s.stage.markAssigned id :=
  (quiet_onSymbols fun t => ((), t.markAssigned id)).mono fun _ _ _ h => h.2

/-- What looking a name up does, given what the symbols say. -/
def resolveFrom (s : CompileState) : Option (SymbolId × Nat × SymbolTable) → CompileM (Option (SymbolId × Nat))
  | some (id, depth, symbols) => do
    set { s with symbols }
    return some (id, depth)
  | none => return none

theorem resolve_eq (name : String) (s : CompileState) :
    resolve name o s = resolveFrom s (s.symbols.resolve s.scope name) o s := rfl

theorem quiet_resolve (name : String) :
    Quiet o (resolve name) fun s a σ =>
      a = (s.stage.resolve name).map (fun r => (r.1, r.2.1)) ∧ σ = s.stage.lookedUp name := by
  intro s hclean
  rw [resolve_eq] at hclean ⊢
  simp only [Stage.lookedUp, Stage.resolve, stage]
  revert hclean
  cases s.symbols.resolve s.scope name with
  | none =>
    intro hclean
    exact ⟨hclean, _, ⟨rfl, rfl⟩, s.advance_nop_stage.symm⟩
  | some r =>
    intro hclean
    exact ⟨hclean, _, ⟨rfl, rfl⟩, by simp [advance, resolveFrom]; rfl⟩

theorem quiet_counted (pos : Pos) (n most : Nat) (what : String) :
    Quiet o (counted pos n most what) fun s a σ => a = n ∧ n ≤ most ∧ σ = s.stage := by
  rw [counted]
  split
  · exact quiet_complain_bind pos _ n
  · next hle =>
    refine ((Quiet.pure ()).bind fun _ => Quiet.pure n).mono ?_
    rintro s a σ ⟨_, _, ⟨_, rfl⟩, rfl, rfl⟩
    exact ⟨rfl, Nat.le_of_not_lt hle, rfl⟩

theorem quiet_slot (pos : Pos) (sym : Symbol) :
    Quiet o (slot pos sym) fun s a σ => a = sym.index ∧ sym.Fits ∧ σ = s.stage := by
  by_cases hfits : sym.Fits
  · rw [slot]
    simp only [if_neg (Nat.not_lt.2 hfits)]
    refine (Quiet.pure sym.index).mono ?_
    rintro s a σ ⟨rfl, rfl⟩
    exact ⟨rfl, hfits, rfl⟩
  · rw [slot]
    simp only [if_pos (Nat.lt_of_not_le hfits)]
    exact quiet_complain_bind pos _ sym.index

theorem quiet_addConstant (pos : Pos) (v : Value) :
    Quiet o (addConstant pos v) fun s a σ =>
      a = s.constants.size ∧ s.constants.size ≤ maxWide ∧ σ = s.stage.addConstant v := by
  intro s hclean
  by_cases hroom : maxWide < s.constants.size
  · have hrun : addConstant pos v o s = (0, (complain pos .tooManyConstants o s).2) := by
      show ((if maxWide < s.constants.size then _ else _ : CompileM Nat) o s) = _
      rw [if_pos hroom]
      rfl
    rw [hrun] at hclean
    obtain ⟨_, _, h, _⟩ := quiet_complain pos .tooManyConstants s hclean
    exact h.elim
  · have hrun : addConstant pos v o s =
        (s.constants.size, { s with constants := s.constants.push v }) := by
      show ((if maxWide < s.constants.size then _ else _ : CompileM Nat) o s) = _
      rw [if_neg hroom]
      rfl
    rw [hrun] at hclean ⊢
    refine ⟨hclean, _, ⟨rfl, Nat.le_of_not_lt hroom, rfl⟩, ?_⟩
    rw [advance, Draft.plus_nop]
    rfl

theorem quiet_newFunctionId : Quiet o newFunctionId fun s a σ => a = s.functions ∧ σ = s.stage.addFunction := by
  intro s hclean
  refine ⟨hclean, _, ⟨rfl, rfl⟩, ?_⟩
  rw [advance, Draft.plus_nop]
  rfl

theorem meets_emitConstant (pos : Pos) (v : Value) :
    Meets o (emitConstant pos v) fun s _ c σ => s.constants.size ≤ maxWide ∧
      c = .instr pos .const [s.constants.size] ∧ σ = s.stage.addConstant v := by
  refine ((quiet_addConstant pos v).andThen fun n => meets_emit pos .const [n]).mono ?_
  rintro s _ c σ ⟨n, σ1, ⟨rfl, hroom, rfl⟩, rfl, rfl⟩
  exact ⟨hroom, rfl, rfl⟩

end

end ScriptEngine
