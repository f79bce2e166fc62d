import ScriptEngine.Proofs.Compiler.Meets
/-!
# The actions of a compilation

Variables, scopes, drafts, jumps and loops: what each of them adds to the code, given what its parts
add. For jumps and loops this is where targets that are set later turn into structured code.
-/

namespace ScriptEngine

open CompileM CompileState

variable {m : CompileM Unit} {P : CompileState → Unit → Code → Stage → Prop} {o : CompileOptions} {α : Type}

/-! ### Variables -/

theorem meets_load (pos : Pos) (id : SymbolId) :
    Meets o (load pos id) fun s _ c σ =>
      (s.stage.symbol id).Fits ∧ c = .load pos (s.stage.symbol id) ∧ σ = s.stage := by
  refine ((quiet_symbol id).andThen fun sym => (quiet_slot pos sym).andThen fun index =>
    meets_emit pos _ [index]).mono ?_
  rintro s _ c σ ⟨sym, σ1, ⟨rfl, rfl⟩, _, σ2, ⟨rfl, hfits, rfl⟩, rfl, rfl⟩
  refine ⟨hfits, ?_, rfl⟩
  rw [Code.load]
  cases (s.stage.symbol id).storage <;> rfl

theorem meets_bindLoopVariable (pos : Pos) (id : SymbolId) :
    Meets o (bindLoopVariable pos id) fun s _ c σ => s.stage.bind pos id = some (c, σ) := by
  have hlast : ∀ (sym : Symbol) (index : Nat), Meets o
      (if sym.storage = .global then emit pos .setGlobal [index]
        else do markAssigned id; emit pos .defineLocal [index]) fun s _ c σ =>
      (c, σ) = if sym.storage = .global then (.instr pos .setGlobal [index], s.stage)
        else (.instr pos .defineLocal [index], s.stage.markAssigned id) := by
    intro sym index
    split
    · exact (meets_emit pos .setGlobal [index]).mono fun _ _ _ _ h => by rw [h.1, h.2]
    · refine ((quiet_markAssigned id).andThen fun _ => meets_emit pos .defineLocal [index]).mono ?_
      rintro s _ c σ ⟨_, _, rfl, rfl, rfl⟩
      rfl
  refine ((quiet_symbol id).andThen fun sym => (quiet_slot pos sym).andThen fun index =>
    hlast sym index).mono ?_
  rintro s _ c σ ⟨sym, σ1, ⟨rfl, rfl⟩, _, σ2, ⟨rfl, hfits, rfl⟩, h⟩
  rw [Stage.bind]
  split at h <;> simp_all

/-- What a store does once the symbol and its slot are known. -/
def storeAt (pos : Pos) (isDefine : Bool) (selectors : Nat) (id : SymbolId) (sym : Symbol) (index : Nat) :
    CompileM Unit :=
  match sym.storage, selectors == 0 with
  | .global, true => emit pos .setGlobal [index]
  | .global, false => emit pos .setSelGlobal [index, selectors]
  | .slot, true => do
    emit pos (if isDefine && !sym.assigned then .defineLocal else .setLocal) [index]
    markAssigned id
  | .slot, false => do
    emit pos .setSelLocal [index, selectors]
    markAssigned id
  | .captured, true => emit pos .setFree [index]
  | .captured, false => emit pos .setSelFree [index, selectors]
  | .builtin, _ => complain pos (.assignToBuiltin sym.name)

theorem meets_emit_some (pos : Pos) (op : Opcode) (operands : List Nat) : Meets o (emit pos op operands) fun s _ c σ =>
    some (Code.instr pos op operands, s.stage) = some (c, σ) := by
  refine (meets_emit pos op operands).mono ?_
  rintro s _ _ _ ⟨rfl, rfl⟩
  rfl

theorem meets_storeAt (pos : Pos) (isDefine : Bool) (selectors : Nat) (id : SymbolId) (sym : Symbol) (index : Nat) :
    Meets o (storeAt pos isDefine selectors id sym index) fun s _ c σ =>
      s.stage.storeIn pos isDefine selectors id { sym with index } = some (c, σ) := by
  have hmarked : ∀ op operands, Meets o (do emit pos op operands; markAssigned id) fun s _ c σ =>
      some (Code.instr pos op operands, s.stage.markAssigned id) = some (c, σ) := by
    intro op operands
    refine ((meets_emit pos op operands).thenQuiet fun _ => quiet_markAssigned id).mono ?_
    rintro s _ _ _ ⟨_, _, ⟨rfl, rfl⟩, rfl⟩
    rfl
  unfold storeAt Stage.storeIn
  cases sym.storage with
  | global | captured => cases selectors == 0 <;> exact meets_emit_some _ _ _
  | slot => cases selectors == 0 <;> exact hmarked _ _
  | builtin => exact meets_complain pos _

theorem meets_store (pos : Pos) (isDefine : Bool) (selectors : Nat) (id : SymbolId) :
    Meets o (store pos isDefine selectors id) fun s _ c σ =>
      s.stage.store pos isDefine selectors id = some (c, σ) := by
  refine ((quiet_symbol id).andThen fun sym => (quiet_slot pos sym).andThen fun index =>
    meets_storeAt pos isDefine selectors id sym index).mono ?_
  rintro s _ c σ ⟨sym, σ1, ⟨rfl, rfl⟩, _, σ2, ⟨rfl, hfits, rfl⟩, h⟩
  rw [Stage.store, if_pos hfits]
  exact h

/-- What a capture does once the symbol and its slot are known. -/
def captureAt (pos : Pos) (id : SymbolId) (sym : Symbol) (index : Nat) : CompileM Unit :=
  match sym.storage with
  | .slot => do
    if !sym.assigned then
      emit pos .pushUndefined
      emit pos .defineLocal [index]
      markAssigned id
    emit pos .captureLocal [index]
  | .captured => emit pos .captureFree [index]
  | .global | .builtin => Pure.pure ()

theorem meets_captureAt (pos : Pos) (id : SymbolId) (sym : Symbol) (index : Nat) :
    Meets o (captureAt pos id sym index) fun s _ c σ =>
      some (s.stage.captureIn pos id { sym with index }) = some (c, σ) := by
  have hnothing : Meets o (Pure.pure ()) fun s _ c σ => some (Code.nop, s.stage) = some (c, σ) := by
    refine (Quiet.pure ()).toMeets.mono ?_
    rintro s _ _ _ ⟨rfl, rfl, rfl⟩
    rfl
  unfold captureAt Stage.captureIn
  cases sym.storage with
  | global | builtin => exact hnothing
  | captured => exact meets_emit_some _ _ _
  | slot =>
    cases sym.assigned with
    | true => exact meets_emit_some _ _ _
    | false =>
      refine ((meets_emit pos .pushUndefined []).bind fun _ => (meets_emit pos .defineLocal [index]).bind
        fun _ => (quiet_markAssigned id).andThen fun _ => meets_emit pos .captureLocal [index]).mono ?_
      rintro s _ _ _ ⟨_, _, _, _, ⟨rfl, rfl⟩, ⟨_, _, _, _, ⟨rfl, rfl⟩, ⟨_, _, rfl, rfl, rfl⟩, rfl⟩, rfl⟩
      rfl

theorem meets_capture (pos : Pos) (id : SymbolId) :
    Meets o (capture pos id) fun s _ c σ => s.stage.capture pos id = some (c, σ) := by
  refine ((quiet_symbol id).andThen fun sym => (quiet_slot pos sym).andThen fun index =>
    meets_captureAt pos id sym index).mono ?_
  rintro s _ c σ ⟨sym, σ1, ⟨rfl, rfl⟩, _, σ2, ⟨rfl, hfits, rfl⟩, h⟩
  rw [Stage.capture, if_pos hfits]
  exact h

theorem meets_captureAll (pos : Pos) (ids : List SymbolId) :
    Meets o (forIn ids PUnit.unit fun id _ => do
      capture pos id
      Pure.pure (ForInStep.yield PUnit.unit)) fun s _ c σ =>
      s.stage.captureAll pos ids = some (c, σ) := by
  induction ids with
  | nil =>
    refine (Quiet.pure _).toMeets.mono ?_
    rintro s _ c σ ⟨rfl, rfl, rfl⟩
    rfl
  | cons id rest ih =>
    simp only [List.forIn_cons, bind_assoc, pure_bind]
    refine ((meets_capture pos id).bind fun _ => ih).mono ?_
    rintro s _ c σ ⟨_, a, σ1, b, ha, hb, rfl⟩
    have hb : σ1.captureAll pos rest = some (b, σ) := hb
    simp [Stage.captureAll, ha, hb]

/-- Defines the parameters of a function. -/
theorem quiet_defineAll (params : List Ident) :
    Quiet o (forIn params PUnit.unit fun param _ => do
      let id ← define param.name
      markAssigned id
      Pure.pure (ForInStep.yield PUnit.unit)) fun s _ σ => σ = s.stage.defineAll params := by
  induction params with
  | nil =>
    rw [List.forIn_nil]
    exact (Quiet.pure _).mono fun _ _ _ h => h.2
  | cons param rest ih =>
    simp only [List.forIn_cons, bind_assoc, pure_bind]
    refine ((quiet_define param.name).bind fun id => (quiet_markAssigned id).bind fun _ => ih).mono ?_
    rintro s _ σ ⟨id, σ1, hdefine, _, σ2, rfl, rfl⟩
    rw [Stage.defineAll, ← hdefine]
    rfl

theorem meets_bindItem (pos : Pos) (it : SymbolId) (op : Opcode) (x : Ident) :
    Meets o (bindItem pos it op x) fun s _ c σ => s.stage.bindItem pos it op x = some (c, σ) := by
  rw [CompileM.bindItem]
  split
  · next hname =>
    refine ((quiet_define x.name).andThen fun id => (meets_load pos it).bind fun _ =>
      (meets_emit pos op []).bind fun _ => meets_bindLoopVariable x.pos id).mono ?_
    rintro s _ c σ ⟨id, σ1, hdefine, _, c1, σ2, c2, ⟨hfits, rfl, rfl⟩,
      ⟨_, c3, σ3, c4, ⟨rfl, rfl⟩, hbind, rfl⟩, rfl⟩
    have hfits : (σ1.symbol it).Fits := hfits
    have hbind : σ1.bind x.pos id = some (c4, σ) := hbind
    rw [Stage.bindItem, if_pos hname, ← hdefine]
    simp only [if_pos hfits, hbind, Option.map_some]
    rfl
  · next hname =>
    refine (Quiet.pure ()).toMeets.mono ?_
    rintro s _ c σ ⟨rfl, _, rfl⟩
    rw [Stage.bindItem, if_neg hname]

/-- Binds the names of a loop over items. -/
def bindItems (pos : Pos) (it : SymbolId) (key : Ident) : Option Ident → CompileM Unit
  | some value => do
    bindItem pos it .iterKey key
    bindItem pos it .iterValue value
  | none => bindItem pos it .iterValue key

theorem meets_bindItems (pos : Pos) (it : SymbolId) (key : Ident) (value : Option Ident) :
    Meets o (bindItems pos it key value) fun s _ c σ =>
      s.stage.bindItems pos it key value = some (c, σ) := by
  cases value with
  | none => exact meets_bindItem pos it .iterValue key
  | some value =>
    refine ((meets_bindItem pos it .iterKey key).bind fun _ =>
      meets_bindItem pos it .iterValue value).mono ?_
    rintro s _ c σ ⟨_, a, σ1, b, ha, hb, rfl⟩
    have hb : σ1.bindItem pos it .iterValue value = some (b, σ) := hb
    simp [Stage.bindItems, ha, hb]

/-! ### Scopes and drafts -/

/-- The state in another scope. -/
def CompileState.inScope (s : CompileState) (scope : ScopeId) : CompileState := { s with scope }

theorem meets_inScope (scope : ScopeId) {m : CompileM α}
    {P : CompileState → α → Code → Stage → Prop} (hm : Meets o m P) :
    Meets o (inScope scope m) fun s a c σ =>
      ∃ σ1, P (s.inScope scope) a c σ1 ∧ σ = σ1.returnTo s.scope := by
  intro s hclean
  obtain ⟨hs, c, σ, hP, heq⟩ := hm (s.inScope scope) hclean
  refine ⟨hs, c, σ.returnTo s.scope, ⟨σ, hP, rfl⟩, ?_⟩
  show { (m o (s.inScope scope)).2 with scope := s.scope } = _
  rw [heq]
  rfl

theorem quiet_inScope (scope : ScopeId) {m : CompileM α} {P : CompileState → α → Stage → Prop} (hm : Quiet o m P) :
    Quiet o (inScope scope m) fun s a σ =>
      ∃ σ1, P (s.inScope scope) a σ1 ∧ σ = σ1.returnTo s.scope := by
  intro s hclean
  obtain ⟨hs, σ, hP, heq⟩ := hm (s.inScope scope) hclean
  refine ⟨hs, σ.returnTo s.scope, ⟨σ, hP, rfl⟩, ?_⟩
  show { (m o (s.inScope scope)).2 with scope := s.scope } = _
  rw [heq]
  rfl

theorem meets_inBlock {m : CompileM α} {P : CompileState → α → Code → Stage → Prop} (hm : Meets o m P) :
    Meets o (inBlock m) fun s a c σ =>
      ∃ σ1, P (s.advance .nop (s.stage.enter true)) a c σ1 ∧ σ = σ1.returnTo s.scope := by
  refine (quiet_get.andThen fun s => (quiet_onSymbols (·.fork s.scope true)).andThen fun scope =>
    meets_inScope scope hm).mono ?_
  rintro s a c σ ⟨_, σ1, ⟨rfl, rfl⟩, scope, σ2, ⟨rfl, rfl⟩, σ3, hP, rfl⟩
  rw [advance_nop_stage] at hP
  exact ⟨σ3, hP, rfl⟩

/-- The state with an empty draft. -/
def CompileState.inDraft (s : CompileState) (kind : BodyKind) : CompileState := { s with draft := { kind } }

theorem quiet_inDraft (kind : BodyKind) (hm : Meets o m P) :
    Quiet o (inDraft kind m) fun s d σ =>
      ∃ c, P (s.inDraft kind) () c σ ∧ d = ({ kind } : Draft).plus c := by
  intro s hclean
  obtain ⟨hs, c, σ, hP, heq⟩ := hm (s.inDraft kind) hclean
  refine ⟨hs, σ, ⟨c, hP, ?_⟩, ?_⟩
  · show (m o (s.inDraft kind)).2.draft = _
    rw [heq]
    rfl
  · show { (m o (s.inDraft kind)).2 with draft := s.draft } = _
    rw [heq]
    simp [CompileState.advance, CompileState.inDraft]

/-! ### Jumps -/

/-- A jump over code. -/
theorem meets_skip (pos : Pos) (branch : Branch) (hm : Meets o m P) :
    Meets o (do
      let skip ← emitJump pos branch.op
      m
      patchHere skip) fun s _ c σ =>
      ∃ body, P (s.advance (.instr pos branch.op [0]) s.stage) () body σ ∧ c = .skip pos branch body := by
  intro s hclean
  have hrun : ((do let skip ← emitJump pos branch.op; m; patchHere skip) o s).2 =
      { (m o (s.advance (.instr pos branch.op [0]) s.stage)).2 with
        draft := (m o (s.advance (.instr pos branch.op [0]) s.stage)).2.draft.patch s.draft.code.size
          (m o (s.advance (.instr pos branch.op [0]) s.stage)).2.draft.code.size } := by
    rw [← emit_eq pos o]
    rfl
  rw [hrun] at hclean ⊢
  obtain ⟨hs, body, σ, hP, heq⟩ := hm (s.advance (.instr pos branch.op [0]) s.stage) hclean
  refine ⟨hs, .skip pos branch body, σ, ⟨body, hP, rfl⟩, ?_⟩
  rw [heq]
  simp only [advance, ← Draft.plus_skip]

/-- What leaving a loop does, given the open loops. -/
def branchFrom (pos : Pos) (isBreak : Bool) : List LoopExits → CompileM Bool
  | [] => do
    complain pos (if isBreak then .breakOutsideLoop else .continueOutsideLoop)
    return false
  | exits :: outer => do
    let offset ← emitJump pos .jump
    let exits :=
      if isBreak then { exits with breaks := offset :: exits.breaks }
      else { exits with continues := offset :: exits.continues }
    modify fun s => { s with draft := { s.draft with loops := exits :: outer } }
    return true

theorem branch_eq (pos : Pos) (isBreak : Bool) (s : CompileState) :
    branch pos isBreak o s = branchFrom pos isBreak s.draft.loops o s := rfl

theorem meets_branch (pos : Pos) (isBreak : Bool) :
    Meets o (branch pos isBreak) fun s a c σ =>
      a = true ∧ s.context.inLoop = true ∧ c = .leave pos isBreak ∧ σ = s.stage := by
  intro s hclean
  cases hloops : s.draft.loops with
  | nil =>
    have hrun : branch pos isBreak o s =
        (false, (complain pos (if isBreak then .breakOutsideLoop else .continueOutsideLoop) o s).2) := by
      rw [branch_eq, hloops]
      rfl
    rw [hrun] at hclean
    obtain ⟨_, _, h, _⟩ := quiet_complain pos _ s hclean
    exact h.elim
  | cons exits outer =>
    have hrun : branch pos isBreak o s = (true, { s with draft := { s.draft.emit pos .jump [0] with
        loops := (if isBreak then { exits with breaks := s.draft.code.size :: exits.breaks }
          else { exits with continues := s.draft.code.size :: exits.continues }) :: outer } }) := by
      rw [branch_eq, hloops]
      rfl
    rw [hrun] at hclean ⊢
    refine ⟨hclean, .leave pos isBreak, s.stage, ⟨rfl, ?_, rfl, rfl⟩, ?_⟩
    · simp [context, hloops]
    · simp only [Draft.emit_eq_plus, advance, stage]
      cases isBreak <;> simp [Draft.plus, Code.openLoops, Code.exits, Code.lines, hloops]

/-! ### Conditions and loops -/

/-- The state with another draft. -/
def CompileState.withDraft (s : CompileState) (d : Draft) : CompileState := { s with draft := d }

theorem meets_conditional_some (pos : Pos) {other : CompileM Unit}
    {Q : CompileState → Unit → Code → Stage → Prop} (hm : Meets o m P) (hother : Meets o other Q) :
    Meets o (conditional pos m (some other)) fun s _ c σ =>
      ∃ yes σ1 no, P (s.advance (.instr pos .jumpFalsy [0]) s.stage) () yes σ1 ∧
        Q (s.advance (.skip pos .onFalsy (yes.seq (.instr pos .jump [0]))) σ1) () no σ ∧
        c = .choose pos yes no := by
  intro s hclean
  have hjump := emit_eq pos o .jumpFalsy [0] s
  generalize hs0 : s.advance (.instr pos .jumpFalsy [0]) s.stage = s0 at hjump
  generalize hs1 : (m o s0).2 = s1
  generalize hd2 : s1.draft.plus (.instr pos .jump [0]) = d2
  generalize hs3 : s1.withDraft (d2.patch s.draft.code.size d2.code.size) = s3
  generalize hs4 : (other o s3).2 = s4
  have hrun : (conditional pos m (some other) o s).2 =
      s4.withDraft (s4.draft.patch s1.draft.code.size s4.draft.code.size) := by
    subst hs4 hs3 hd2 hs1
    rw [← hjump, ← Draft.emit_eq_plus]
    rfl
  rw [hrun] at hclean ⊢
  obtain ⟨hclean3, no, σ, hQ, heq4⟩ := hother s3 (by rw [hs4]; exact hclean)
  obtain ⟨hclean0, yes, σ1, hP, heq1⟩ := hm s0 (by rw [hs1]; rw [← hs3] at hclean3; exact hclean3)
  have hclean : s.Clean := by rw [← hs0] at hclean0; exact hclean0
  -- The jump over the first alternative is complete before the second one is compiled.
  have hs3' : s3 = s.advance (.skip pos .onFalsy (yes.seq (.instr pos .jump [0]))) σ1 := by
    have hskip := Draft.plus_skip s.draft pos .onFalsy (yes.seq (.instr pos .jump [0]))
    rw [Draft.plus_seq] at hskip
    rw [← hs3, ← hd2, ← hs1, heq1, ← hs0]
    simp only [withDraft, advance, ← hskip]
    rfl
  refine ⟨hclean, .choose pos yes no, σ, ⟨yes, σ1, no, hs0 ▸ hP, hs3' ▸ hQ, rfl⟩, ?_⟩
  have hsize : s1.draft.code.size = s.draft.code.size + Code.jumpLength + yes.size := by
    rw [← hs1, heq1, ← hs0]
    simp [advance, Code.size, Opcode.length_jumpFalsy]
  rw [← hs4, heq4, hs3', hsize]
  simp only [withDraft, advance, ← Draft.plus_choose]

/-- What the condition of a loop does: code that computes it, and a test whose target is not set
yet and whose offset is the result. -/
def Tests (pos : Pos) (tests : Bool) (R : CompileState → Code → Stage → Prop) :
    CompileState → Option Nat → Code → Stage → Prop := fun s a c σ =>
  ∃ head, R s head σ ∧ c = head.seq (Draft.openTest pos tests) ∧
    a = bif tests then some (s.draft.code.size + head.size) else none

/-- Sets the target of the test at an offset, if there is one. -/
def Draft.patchTest (d : Draft) (target : Nat) : Option Nat → Draft
  | some offset => d.patch offset target
  | none => d

/-- The end of a loop, where the targets of its jumps are set. -/
def endLoop (exit : Option Nat) (exits : LoopExits) (stop next : Nat) : CompileM Unit := do
  match exit with
  | some offset => patch offset stop
  | none => Pure.pure ()
  closeLoop exits stop next

theorem endLoop_eq (exit : Option Nat) (exits : LoopExits) (stop next : Nat) (s : CompileState) :
    (endLoop exit exits stop next o s).2 = s.withDraft
      (((s.draft.patchTest stop exit).patchAll exits.breaks stop).patchAll exits.continues next) := by
  cases exit <;> rfl

theorem meets_loop (pos : Pos) (tests : Bool) {condition : CompileM (Option Nat)}
    {post body : CompileM Unit} {R : CompileState → Code → Stage → Prop}
    {Q : CompileState → Unit → Code → Stage → Prop} (hcondition : Meets o condition (Tests pos tests R))
    (hbody : Meets o body P) (hpost : Meets o post Q) :
    Meets o (CompileM.loop pos condition post body) fun s _ c σ =>
      ∃ head s1 inside s2 after, R s head s1.stage ∧ s1.context = { s.context with inLoop := true } ∧
        P s1 () inside s2.stage ∧ s2.context = s.context ∧ Q s2 () after σ ∧
        c = .loop pos head tests inside after := by
  intro s hclean
  generalize ha : (condition o s).1 = a
  generalize ht1 : (condition o s).2 = t1
  generalize hs1 : t1.withDraft { t1.draft with loops := {} :: t1.draft.loops } = s1
  generalize ht2 : (body o s1).2 = t2
  generalize hs2 : t2.withDraft t2.draft.leaveLoop = s2
  generalize ht3 : (post o s2).2 = t3
  generalize hclosed : t3.draft.plus (.instr pos .jump [s.draft.code.size]) = closed
  have hrun : (CompileM.loop pos condition post body o s).2 = t3.withDraft
      (((closed.patchTest closed.code.size a).patchAll (t2.draft.loops.headD {}).breaks
        closed.code.size).patchAll (t2.draft.loops.headD {}).continues t2.draft.code.size) := by
    subst hclosed ht3 hs2 ht2 hs1 ht1
    rw [← Draft.emit_eq_plus]
    show (endLoop (condition o s).1 _ _ _ o _).2 = _
    rw [endLoop_eq, ha]
    rfl
  rw [hrun] at hclean ⊢
  obtain ⟨hclean2, after, σ, hQ, heq3⟩ := hpost s2 (by rw [ht3]; exact hclean)
  obtain ⟨hclean1, inside, σ2, hP, heq2⟩ := hbody s1 (by rw [ht2]; rw [← hs2] at hclean2; exact hclean2)
  obtain ⟨hclean, _, σ1, ⟨head, hR, rfl, haeq⟩, heq1⟩ :=
    hcondition s (by rw [ht1]; rw [← hs1] at hclean1; exact hclean1)
  have hdraft1 : s1.draft = s.draft.enterLoop (head.seq (Draft.openTest pos tests)) := by
    rw [← hs1, ← ht1, heq1]
    rfl
  have hdraft2 : t2.draft = (s.draft.enterLoop (head.seq (Draft.openTest pos tests))).plus inside := by
    rw [← ht2, heq2, draft_advance, hdraft1]
  have hclosed' : closed =
      (t2.draft.leaveLoop.plus after).plus (.instr pos .jump [s.draft.code.size]) := by
    rw [← hclosed, ← ht3, heq3, ← hs2]
    rfl
  have hloop := Draft.plus_loop s.draft pos head tests inside after hdraft2 hclosed'
  have htest : closed.patchTest closed.code.size a =
      closed.closeTest (s.draft.code.size + head.size) closed.code.size tests := by
    rw [← ha, haeq]
    cases tests <;> rfl
  have hctx1 : s1.context = { s.context with inLoop := true } := by
    rw [← hs1, ← ht1, heq1]
    rfl
  have hctx2 : s2.context = s.context := by
    have hloops : t2.draft.leaveLoop.loops.isEmpty = s.draft.loops.isEmpty := by
      rw [hdraft2, ← Draft.isEmpty_loops_plus s.draft (head.seq (Draft.openTest pos tests))]
      rfl
    have himporting : s2.importing = s.importing := by
      rw [← hs2, ← ht2, heq2, ← hs1, ← ht1, heq1]
      rfl
    have hdraft : s2.draft = t2.draft.leaveLoop := by
      rw [← hs2]
      rfl
    rw [context, himporting, hdraft, hloops, hdraft2]
    rfl
  refine ⟨hclean, .loop pos head tests inside after, σ, ⟨head, s1, inside, s2, after, ?_, ?_, ?_, hctx2, hQ, rfl⟩,
    ?_⟩
  · rw [← hs1, ← ht1, heq1]
    exact hR
  · exact hctx1
  · rw [← hs2, ← ht2, heq2]
    exact hP
  · rw [htest, hloop, ← ht3, heq3, ← hs2, ← ht2, heq2, ← hs1, ← ht1, heq1]
    rfl

/-! ### Ends of functions -/

/-- Functions and modules return. -/
theorem meets_outsideMain (pos : Pos) {m : CompileM Bool} {P : CompileState → Bool → Code → Stage → Prop}
    (hm : Meets o m P) :
    Meets o (do
      if (← get).draft.kind = .main then do complain pos .returnOutsideFunction; Pure.pure false
      else m) fun s a c σ => s.context.kind ≠ .main ∧ P s a c σ := by
  refine (quiet_get.andThen fun s => Meets.ite (fun _ => meets_complain_bind pos _ false) fun hkind =>
    hm.mono fun _ _ _ _ hP => And.intro hkind hP).mono ?_
  rintro s a c σ ⟨_, _, ⟨rfl, rfl⟩, h⟩
  rwa [advance_nop_stage] at h

theorem meets_returnFrom_none (pos : Pos) :
    Meets o (returnFrom pos none) fun s a c σ =>
      a = true ∧ s.context.kind ≠ .main ∧ c = .instr pos .ret [0] ∧ σ = s.stage := by
  refine (meets_outsideMain pos ((meets_emit pos .ret [0]).thenQuiet fun _ => Quiet.pure true)).mono ?_
  rintro s a c σ ⟨hkind, _, σ1, ⟨rfl, rfl⟩, rfl, rfl⟩
  exact ⟨rfl, hkind, rfl, rfl⟩

theorem meets_returnFrom_some (pos : Pos) (hm : Meets o m P) :
    Meets o (returnFrom pos (some m)) fun s a c σ =>
      ∃ value, a = true ∧ s.context.kind ≠ .main ∧ P s () value σ ∧
        c = value.seq (.instr pos .ret [1]) := by
  refine (meets_outsideMain pos (hm.bind fun _ =>
    (meets_emit pos .ret [1]).thenQuiet fun _ => Quiet.pure true)).mono ?_
  rintro s a c σ ⟨hkind, _, value, σ1, _, hP, ⟨_, σ2, ⟨rfl, rfl⟩, rfl, rfl⟩, rfl⟩
  exact ⟨value, rfl, hkind, hP, rfl⟩

/-- What giving the value of a module does in the body of something. -/
def exportIn (pos : Pos) (value : CompileM Unit) : BodyKind → CompileM Bool
  | .function => do
    complain pos .exportInsideFunction
    return false
  | .main => return false
  | .module => do
    value
    emit pos .freeze
    emit pos .ret [1]
    return true

theorem meets_exportFrom (pos : Pos) (hm : Meets o m P) :
    Meets o (exportFrom pos m) fun s a c σ =>
      (a = false ∧ s.context.kind = .main ∧ c = .nop ∧ σ = s.stage) ∨
        ∃ value, a = true ∧ s.context.kind = .module ∧ P s () value σ ∧
          c = value.seq ((Code.instr pos .freeze []).seq (.instr pos .ret [1])) := by
  have hend : ∀ kind : BodyKind, Meets o (exportIn pos m kind) fun s a c σ =>
      (a = false ∧ kind = .main ∧ c = .nop ∧ σ = s.stage) ∨
        ∃ value, a = true ∧ kind = .module ∧ P s () value σ ∧
          c = value.seq ((Code.instr pos .freeze []).seq (.instr pos .ret [1])) := by
    intro kind
    cases kind with
    | function => exact meets_complain_bind pos _ false
    | main =>
      refine (Quiet.pure false).toMeets.mono ?_
      rintro s a c σ ⟨rfl, rfl, rfl⟩
      exact .inl ⟨rfl, rfl, rfl, rfl⟩
    | module =>
      refine (hm.bind fun _ => (meets_emit pos .freeze []).bind fun _ =>
        (meets_emit pos .ret [1]).thenQuiet fun _ => Quiet.pure true).mono ?_
      rintro s a c σ ⟨_, value, σ1, _, hP, ⟨_, _, σ2, _, ⟨rfl, rfl⟩, ⟨_, σ3, ⟨rfl, rfl⟩, rfl, rfl⟩, rfl⟩, rfl⟩
      exact .inr ⟨value, rfl, rfl, hP, rfl⟩
  refine (quiet_get.andThen fun s => hend s.draft.kind).mono ?_
  rintro s a c σ ⟨s', σ1, ⟨rfl, rfl⟩, h⟩
  rw [advance_nop_stage] at h
  exact h

end ScriptEngine
