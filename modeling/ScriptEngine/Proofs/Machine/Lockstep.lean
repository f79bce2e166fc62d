import ScriptEngine.Proofs.Machine.Ties
/-!
# Machines in lockstep

Two machines that are tied make the same steps. They end with tied values or with the same failure, unless the
first one fails in a way that is excused (`Exec.agree_loops`, `Exec.agree_run`).
-/

namespace ScriptEngine

variable {f g : Function} {inv1 inv2 : Invoke} {rest : List Frame} {target : Nat} {s1 s2 : Setting}

variable {i j : Instruction} {m m1 m2 : Machine} {n : Nat} {v w : Value}

variable {κ : Correspondence} {τ : Tie}

namespace Exec

variable {α β γ δ : Type} {R : α → β → Prop} {R' : γ → δ → Prop}

/-! ### Calls -/

/-- Two ways of calling do the same with values that belong together. -/
def CallsAgree (τ : Tie) (s1 : Setting) (inv1 inv2 : Value → List Value → Exec Value) : Prop :=
  ∀ v w args args', v.Tied τ w → List.Forall₂ (Value.Tied τ) args args' →
    Agree τ s1 (Value.Tied τ) (inv1 v args) (inv2 w args')

/-- What two functions of hosts ask for is done in the same way. -/
theorem agree_perform (hinv : CallsAgree τ s1 inv1 inv2) {a b : HostAction} (h : a.Tied τ s1.limits s2.limits b) :
    Agree τ s1 (Value.Tied τ) (perform s1 inv1 a) (perform s2 inv2 b) := by
  induction h with
  | give h => exact .pure h
  | fail f => exact fun _ _ hm => .error hm
  | call hstrict hcallee hargs _ _ ihok iherror =>
    intro m1 m2 hm
    have hcall := (Agree.checkToken.bind fun _ _ _ => hinv _ _ _ _ hcallee hargs) m1 m2 hm
    simp only [perform]
    generalize (checkToken >>= fun _ => inv1 _ _) m1 = r1 at hcall
    generalize (checkToken >>= fun _ => inv2 _ _) m2 = r2 at hcall
    cases hcall with
    | ok h hm => exact ihok _ _ h _ _ hm
    | @error e _ _ hm =>
      cases e with
      | failure f => exact iherror f _ _ hm
      | outOfFuel => exact .error hm
    | excused h => exact (hstrict _ h).elim
  | onHeap hop _ _ ihok iherror =>
    intro m1 m2 hm
    simp only [perform, takeHeap]
    rcases hop _ _ hm.heap with ⟨v, w, h1, h2, hx, hy, hv, hh⟩ | ⟨f, h1, h2, hx, hy, hh⟩
    · rw [hx, hy]
      exact ihok _ _ hv _ _ { hm with heap := hh }
    · rw [hx, hy]
      exact iherror f _ _ { hm with heap := hh }
  | limits _ ih => exact ih
  | cancel _ ih =>
    intro m1 m2 hm
    exact ih _ _ { hm with token := by simp only [hm.token] }

/-- Execution goes on in the same way. -/
inductive FlowsMatch (τ : Tie) : Flow → Flow → Prop where
  | goOn : FlowsMatch τ .goOn .goOn
  | returned {v w : Value} (h : v.Tied τ w) : FlowsMatch τ (.returned v) (.returned w)
  | suspended : FlowsMatch τ .suspended .suspended

/-- Makes a function from another one and the last `n` captured cells. -/
def closeOver (s : Setting) (f : Function) (n : Nat) : Exec Unit := do
  let cells := (← get).captures
  if cells.size < n then fault (.custom "missing captured cells")
  let start := cells.size - n
  modify fun m => { m with captures := m.captures.shrink start }
  alloc
  push s (← onHeap (HeapM.function { f with captured := cells.extract start cells.size }))

/-- A closure is made of the function among the constants, if there is one. -/
theorem makeClosure_eq (s : Setting) (index n : Nat) : makeClosure s index n =
    match s.program.functionAt? index with
    | some f => closeOver s f n
    | none => fault (.custom s!"constant {index} is not a function") := by
  rw [makeClosure, Program.functionAt?]
  cases s.program.constants[index]? with
  | none => rfl
  | some v => cases v <;> rfl

/-- The cells of the local variables of a function are forgotten. -/
theorem pointwise_clear (base locals : Nat) {cells cells' : Array (Option Addr)} (h : Pointwise (CellsMatch τ) cells cells') :
    Pointwise (CellsMatch τ) (locals.fold (fun i _ cells => cells.setIfInBounds (base + i) none) cells)
      (locals.fold (fun i _ cells => cells.setIfInBounds (base + i) none) cells') := by
  induction locals with
  | zero => exact h
  | succ n ih =>
    rw [Nat.fold_succ]
    exact ih.setIfInBounds _ cellsMatch_none

theorem size_clear (base locals : Nat) (cells : Array (Option Addr)) :
    (locals.fold (fun i _ cells => cells.setIfInBounds (base + i) none) cells).size = cells.size := by
  induction locals with
  | zero => rfl
  | succ n ih => rw [Nat.fold_succ, Array.size_setIfInBounds, ih]

/-- There are places for the local variables of a function. -/
theorem tied_reserve (hm : m1.Tied τ s1 m2) {base locals : Nat} (hroom : base + locals ≤ s1.config.stackSize) :
    ({ m1 with
      stack := fillUp m1.stack (base + locals) .undefined
      cells := locals.fold (fun i _ cells => cells.setIfInBounds (base + i) none) (fillUp m1.cells (base + locals) none) }).Tied τ s1 { m2 with
        stack := fillUp m2.stack (base + locals) .undefined
        cells := locals.fold (fun i _ cells => cells.setIfInBounds (base + i) none)
          (fillUp m2.cells (base + locals) none) } := by
  refine { hm with
    stack := pointwise_fillUp hm.stack _ .undefined
    cells := pointwise_clear _ _ (pointwise_fillUp hm.cells _ cellsMatch_none), room := ?_, places := ?_ }
  · rw [size_fillUp]
    exact Nat.max_le.2 ⟨hm.room, hroom⟩
  · rw [size_clear, size_fillUp]
    exact Nat.max_le.2 ⟨hm.places, hroom⟩

theorem enter_eq (s : Setting) (f : Function) (base : Nat) (m : Machine) : enter s f base m =
    if s.config.stackSize < base + f.locals then .error (.failure { cause := .stackOverflow }) m
    else .ok () { m with
      stack := fillUp m.stack (base + f.locals) .undefined
      cells := f.locals.fold (fun i _ cells => cells.setIfInBounds (base + i) none)
        (fillUp m.cells (base + f.locals) none)
      frames := { func := f, base } :: m.frames } := by
  split
  · next hfull => exact bind_error (if_pos hfull)
  · next hfits => exact bind_ok (x := reserveLocals s f base) (if_neg hfits)

section Calls

variable (hs : s1.Tied τ s2)

include hs

section Functions

variable (hf : τ.function f g)

include hf

theorem agree_reserveLocals (base : Nat) : Agree τ s1 Eq (reserveLocals s1 f base) (reserveLocals s2 g base) := by
  intro m1 m2 hm
  rw [reserveLocals, reserveLocals, hs.runs.locals hf]
  exact .check (passed_of_bounds hs.stackSize Nat.lt_of_le_of_lt) hm fun hroom =>
    .ok rfl (tied_reserve hm (Nat.not_lt.1 hroom))

variable (hcode : τ.law.code f)

include hcode

/-- A function is entered when there may be one more call. -/
theorem outcome_enter (base : Nat) (hm : m1.Tied τ s1 m2) (hdepth : m1.frames.length < max 1 s1.config.maxFrames) :
    Outcome τ s1 Eq (enter s1 f base m1) (enter s2 g base m2) := by
  rw [enter_eq, enter_eq, hs.runs.locals hf]
  refine .check (passed_of_bounds hs.stackSize Nat.lt_of_le_of_lt) hm fun hroom => .ok rfl
    { tied_reserve hm (Nat.not_lt.1 hroom) with
      frames := .cons ⟨hf, hcode, hs.runs.start hf, rfl, rfl, rfl⟩ hm.frames
      depth := hdepth }

omit hcode in
theorem agree_collectRest (hfunction : τ.law.function f) (n : Nat) :
    Agree τ s1 Eq (collectRest s1 f n) (collectRest s2 g n) := by
  rw [collectRest, collectRest, hs.runs.variadic hf, hs.runs.parameters hf]
  by_cases hvariadic : f.variadic = true
  · rw [if_pos hvariadic, if_pos hvariadic]
    refine .failIf fun _ => (Agree.popMany _).bind fun _ _ hrest => (Agree.alloc hs).bind fun _ _ _ =>
      (Agree.onHeap (.array hrest.1 ?_)).bind fun _ _ hv => (Agree.push hs hv).bind fun _ _ _ => .pure rfl
    rw [hrest.2.1]
    exact hs.variadic f hfunction hvariadic _ hrest.2.2
  · rw [if_neg hvariadic, if_neg hvariadic]
    exact .pure rfl

omit hcode in
theorem rel_reusable {fs gs : List Frame} (h : List.Forall₂ (Frame.Tied τ) fs gs) :
    Option.Rel (fun x y => x.1.Tied τ y.1 ∧ List.Forall₂ (Frame.Tied τ) x.2 y.2) (reusable s1 f fs)
      (reusable s2 g gs) := by
  cases h with
  | nil => exact .none
  | @cons frame frame' _ _ hframe hrest =>
    have hid : (frame'.func.id == g.id) = (frame.func.id == f.id) := by
      rw [τ.id_eq _ _ hframe.func, τ.id_eq _ _ hf, Bool.eq_iff_iff, beq_iff_eq, beq_iff_eq]
      exact ⟨τ.ids_inj _ _, congrArg τ.ids⟩
    have hreturns : frame'.returnsNext = frame.returnsNext := by
      rw [Frame.returnsNext, Frame.returnsNext, hframe.next]
      exact hs.runs.returns hframe.func hframe.reached
    simp only [reusable, hs.reuse, hid, hreturns]
    split
    · exact .some ⟨hframe, hrest⟩
    · exact .none

theorem outcome_restart {frame frame' : Frame} {outer outer' : List Frame} (hframe : frame.Tied τ frame')
    (houter : List.Forall₂ (Frame.Tied τ) outer outer') (n : Nat) (hm : m1.Tied τ s1 m2)
    (hframes : m1.frames = frame :: outer) :
    Outcome τ s1 Eq (restart s1 f frame outer n m1) (restart s2 g frame' outer' n m2) := by
  have hdepth := hm.depth
  have hroom := hm.room
  rw [hframes] at hdepth
  rw [restart, restart, hframe.base]
  refine agree_reserveLocals hs hf _ _ _ { hm with
    stack := ?_, room := ?_, depth := hdepth
    frames := .cons ⟨hf, hcode, hs.runs.start hf, rfl, hframe.current, rfl⟩ houter }
  · simp only [← hm.stack.size_eq]
    exact ((hm.stack.shrink _).shrink _).append (hm.stack.extract _ _)
  · rw [Array.size_append, Array.size_shrink, Array.size_shrink, Array.size_extract]
    omega

theorem agree_beginCall (mayReuse : Bool) (n : Nat) :
    Agree τ s1 Eq (beginCall s1 f mayReuse n) (beginCall s2 g mayReuse n) := by
  intro m1 m2 hm
  have hreused : ∀ frame outer, (if mayReuse then reusable s1 f m1.frames else none) = some (frame, outer) →
      m1.frames = frame :: outer := fun _ _ => eq_of_reusable
  have hreusable : Option.Rel (fun x y => x.1.Tied τ y.1 ∧ List.Forall₂ (Frame.Tied τ) x.2 y.2)
      (if mayReuse then reusable s1 f m1.frames else none) (if mayReuse then reusable s2 g m2.frames else none) := by
    split
    · exact rel_reusable hs hf hm.frames
    · exact .none
  rw [beginCall, beginCall, hs.runs.parameters hf]
  by_cases hcount : n ≠ f.parameters
  · rw [if_pos hcount, if_pos hcount]
    exact Agree.fault _ m1 m2 hm
  · rw [if_neg hcount, if_neg hcount]
    generalize (if mayReuse then reusable s1 f m1.frames else none) = x at hreusable hreused
    generalize (if mayReuse then reusable s2 g m2.frames else none) = y at hreusable
    cases hreusable with
    | some h => exact outcome_restart hs hf hcode h.1 h.2 n hm (hreused _ _ rfl)
    | none =>
      rw [← hm.frames.length_eq, ← hm.stack.size_eq]
      exact .check (passed_of_bounds hs.maxFrames Nat.le_trans) hm fun hroom => outcome_enter hs hf hcode _ hm
        (Nat.lt_of_lt_of_le (Nat.not_le.1 hroom) (Nat.le_max_right _ _))

omit hcode in
theorem agree_callFunction (hfunction : τ.law.function f) (n : Nat) (mayReuse : Bool) :
    Agree τ s1 Eq (callFunction s1 f n mayReuse) (callFunction s2 g n mayReuse) := by
  rw [callFunction_eq, callFunction_eq]
  refine (agree_collectRest hs hf hfunction n).bind fun k k' hk => ?_
  subst hk
  exact agree_beginCall hs hf (τ.law.active f hfunction) mayReuse k

end Functions

theorem agree_spread (n : Nat) : Agree τ s1 Eq (spread s1 n) (spread s2 n) := by
  refine Agree.pop.bind fun v w hv => ?_
  have hname := hv.typeName_eq
  cases hv with
  | array ha | frozenArray ha =>
    refine (Agree.inspect fun h1 h2 hh => hh.array ha).bind fun xs ys hxs => ?_
    rw [hxs.size_eq]
    exact (Agree.pushAll hs hxs).bind fun _ _ _ => .pure rfl
  | _ =>
    simp only [hname]
    exact .fault _

section Natives

variable (hinv : CallsAgree τ s1 inv1 inv2)

include hinv

theorem agree_callNative {f : Native} (hf : τ.law.native f) (n : Nat) :
    Agree τ s1 Eq (callNative s1 inv1 f n) (callNative s2 inv2 f n) := by
  refine Agree.checkToken.bind fun _ _ _ => (Agree.popMany n).bind fun args args' hargs =>
    Agree.pop.discard.bind fun _ _ _ => ?_
  cases f with
  | builtin b =>
    exact (Agree.onHeap (Builtin.agree_call hargs.1 hs.limits b)).bind fun _ _ hv =>
      (Agree.alloc hs).bind fun _ _ _ => Agree.push hs hv
  | host name =>
    exact (agree_perform hinv (hs.host name _ _ hf hargs.1)).bind fun _ _ hv =>
      (Agree.alloc hs).bind fun _ _ _ => Agree.push hs hv

theorem agree_callBelow (n : Nat) : Agree τ s1 Eq (callBelow s1 inv1 n) (callBelow s2 inv2 n) := by
  intro m1 m2 hm
  have hcallee := Agree.stackAt hm (m1.stack.size - (n + 1))
  simp only [callBelow, ← hm.stack.size_eq]
  refine .check (.inl Iff.rfl) hm fun _ => ?_
  generalize m1.stack.getD _ _ = v, m2.stack.getD _ _ = w at hcallee
  have hname := hcallee.typeName_eq
  cases hcallee with
  | function hf hfunction => exact agree_callFunction hs hf hfunction n true m1 m2 hm
  | native hf => exact agree_callNative hs hinv hf n m1 m2 hm
  | _ =>
    simp only [dispatch, hname]
    exact Agree.fault _ m1 m2 hm

theorem agree_call (n : Nat) (isSpread : Bool) :
    Agree τ s1 Eq (call s1 inv1 n isSpread) (call s2 inv2 n isSpread) := by
  rw [call_eq, call_eq]
  refine Agree.bind (.ite (agree_spread hs n) (.pure rfl)) fun k k' hk => ?_
  subst hk
  exact agree_callBelow hs hinv k

end Natives

theorem agree_leave (floor : Nat) (hv : v.Tied τ w) :
    Agree τ s1 (FlowsMatch τ) (leave s1 floor v) (leave s2 floor w) := by
  intro m1 m2 hm
  have hframes := hm.frames
  have hdepth := hm.depth
  simp only [leave]
  generalize m1.frames = fs, m2.frames = gs at hframes hdepth
  cases hframes with
  | nil => exact .error hm
  | @cons f g rest rest' hframe hrest =>
    have hleft : ({ m1 with
        frames := rest, stack := m1.stack.shrink (f.base - 1), cells := m1.cells.shrink f.base }).Tied
        τ s1 { m2 with
          frames := rest', stack := m2.stack.shrink (g.base - 1), cells := m2.cells.shrink g.base } := by
      rw [hframe.base]
      exact { hm with
        frames := hrest
        depth := Nat.le_of_succ_le hdepth
        stack := hm.stack.shrink _
        room := Nat.le_trans (by simp) hm.room
        cells := hm.cells.shrink _
        places := Nat.le_trans (by simp) hm.places }
    dsimp only
    rw [← hrest.length_eq]
    split
    · exact .ok (.returned hv) hleft
    · exact ((Agree.push hs hv).bind fun _ _ _ => .pure .goOn) _ _ hleft

theorem agree_closeOver (h : τ.Makes n f g) (hlaw : ∀ id (captured : Array Addr), captured.size = n →
    (∀ a ∈ captured, τ.law.cells a) → τ.law.function { f with id, captured }) :
    Agree τ s1 Eq (closeOver s1 f n) (closeOver s2 g n) := by
  refine Agree.get fun m1 m2 hm => ?_
  have hsame : m1.captures = m2.captures :=
    (Pointwise.eq_iff (R := Eq) Iff.rfl).1 (hm.captures.imp fun _ _ h => h.2)
  dsimp only
  rw [← hsame]
  refine .failIf fun hfew => ?_
  have hsize : (m1.captures.extract (m1.captures.size - n) m1.captures.size).size = n := by
    rw [Array.size_extract]
    omega
  have hcells := (hm.captures.extract (m1.captures.size - n) m1.captures.size).forall_left
  have hmade : ∀ id, τ.law.function
      { f with id, captured := m1.captures.extract (m1.captures.size - n) m1.captures.size } :=
    fun id => hlaw id _ hsize hcells
  refine (Agree.change fun _ _ hm => ?_).bind fun _ _ _ => (Agree.alloc hs).bind fun _ _ _ =>
    (Agree.newFunction (fun id => h id _ hsize) hmade).bind fun _ _ hv => Agree.push hs hv
  exact { hm with captures := hm.captures.shrink _ }

theorem agree_makeClosure {a b : Nat}
    (h : Option.Rel (τ.Makes n) (s1.program.functionAt? a) (s2.program.functionAt? b))
    (hnone : s1.program.functionAt? a = none → a = b)
    (hlaw : ∀ f, s1.program.functionAt? a = some f → ∀ id (captured : Array Addr), captured.size = n →
      (∀ a ∈ captured, τ.law.cells a) → τ.law.function { f with id, captured }) :
    Agree τ s1 Eq (makeClosure s1 a n) (makeClosure s2 b n) := by
  rw [makeClosure_eq, makeClosure_eq]
  generalize s1.program.functionAt? a = x, s2.program.functionAt? b = y at h hnone hlaw
  cases h with
  | none =>
    rw [hnone rfl]
    exact .fault _
  | some hmakes => exact agree_closeOver hs hmakes (hlaw _ rfl)

end Calls

/-! ### Steps -/

theorem rel_pairUp {h1 h2 : Heap} (hh : h1.Tied τ h2) {xs ys : List Value}
    (h : List.Forall₂ (Value.Tied τ) xs ys) {d e : Dict Value} (hd : Dict.Pointwise (Value.Tied τ) d e) :
    Dict.Pointwise (Value.Tied τ) (pairUp h1 xs d) (pairUp h2 ys e) := by
  induction xs using List.twoStepInduction generalizing ys d e with
  | nil =>
    cases h
    exact hd
  | singleton x =>
    obtain ⟨y, ys, hy, hrest, rfl⟩ := List.forall₂_cons_left_iff.1 h
    cases hrest
    exact hd
  | cons_cons key v rest ih _ =>
    obtain ⟨key', ys, hkey, htail, rfl⟩ := List.forall₂_cons_left_iff.1 h
    obtain ⟨v', ys, hv, hrest, rfl⟩ := List.forall₂_cons_left_iff.1 htail
    rw [pairUp, pairUp, hkey.corresponds.plainText_eq hh.corresponds]
    exact ih hrest (hd.insert _ hv)

theorem jump_eq {f : Frame} (hframes : m.frames = f :: rest) (target : Nat) :
    jump target m = .ok () { m with frames := { f with next := target } :: rest } := by
  rw [jump, hframes]

theorem jump_none (hframes : m.frames = []) (target : Nat) :
    jump target m = .error (.failure { cause := .custom "no active frame" }) m := by
  rw [jump, hframes]

theorem fetch_none (hframes : m.frames = []) :
    fetch m = .error (.failure { cause := .custom "no active frame" }) m := by
  rw [fetch, hframes]

/-- What is fetched is the instruction at the next offset of the innermost frame. -/
theorem fetch_eq {f : Frame} (hframes : m.frames = f :: rest) : fetch m =
      match f.func.instructionAt f.next with
      | .error c => .error (.failure { cause := c }) m
      | .ok i => .ok i { m with frames := { f with current := i.offset, next := i.next } :: rest } := by
  rw [fetch, hframes, Function.instructionAt]
  dsimp only
  cases hbyte : f.func.code[f.next]? with
  | none => rfl
  | some byte =>
    dsimp only
    rw [Instruction.fetchAt_eq (Array.getElem?_eq_some_iff.1 hbyte).1]
    cases Instruction.decodeAt f.func.code f.next byte <;> rfl

/-- Two machines can both go on at an offset. -/
def Lands (τ : Tie) (target : Nat) (m1 m2 : Machine) : Prop :=
  ∀ f fs g gs, m1.frames = f :: fs → m2.frames = g :: gs → τ.offset f.func g.func target

theorem outcome_jump (hm : m1.Tied τ s1 m2) (h : Lands τ target m1 m2) :
    Outcome τ s1 (FlowsMatch τ) ((do jump target; return .goOn : Exec Flow) m1)
      ((do jump target; return .goOn : Exec Flow) m2) := by
  have hframes := hm.frames
  cases h1 : m1.frames with
  | nil =>
    rw [h1] at hframes
    have h2 : m2.frames = [] := List.forall₂_nil_left_iff.1 hframes
    rw [bind_error (jump_none h1 _), bind_error (jump_none h2 _)]
    exact .error hm
  | cons f rest =>
    rw [h1] at hframes
    obtain ⟨g, rest', hframe, hrest, h2⟩ := List.forall₂_cons_left_iff.1 hframes
    rw [bind_ok (jump_eq h1 _), bind_ok (jump_eq h2 _)]
    have hdepth := hm.depth
    rw [h1] at hdepth
    exact .ok .goOn { hm with
      frames := .cons { hframe with reached := h f rest g rest' h1 h2, next := rfl } hrest, depth := hdepth }

/-- Executions that work on values only go on in machines that land at the same offsets. -/
theorem Agree.bind_blind {x : Exec α} {y : Exec β} {f : α → Exec γ} {g : β → Exec δ} (hxy : Agree τ s1 R x y)
    (hx : Blind x) (hy : Blind y) (hm : m1.Tied τ s1 m2) (hlands : Lands τ target m1 m2)
    (h : ∀ a b m1' m2', R a b → m1'.Tied τ s1 m2' → Lands τ target m1' m2' →
      Outcome τ s1 R' (f a m1') (g b m2')) : Outcome τ s1 R' ((x >>= f) m1) ((y >>= g) m2) := by
  refine (hxy m1 m2 hm).next fun a b m1' m2' hab hm' hx' hy' => h _ _ _ _ hab hm' fun f fs g gs hf hg => ?_
  rw [hx.steady.keeps_ok hx'] at hf
  rw [hy.steady.keeps_ok hy'] at hg
  exact hlands f fs g gs hf hg

/-- Jumps do the same where both machines can go on at their target. -/
theorem agree_jump {floor : Nat} (hjump : i.op.isJump = true) (hm : m1.Tied τ s1 m2) (hlands : Lands τ i.first m1 m2) :
    Outcome τ s1 (FlowsMatch τ) (execute s1 inv1 floor i m1) (execute s2 inv2 floor i m2) := by
  obtain ⟨offset, op, operands⟩ := i
  -- Tests look at a value first and leave the frames alone.
  have htest : ∀ {v w : Value} {f g : Bool → Exec Flow} {m1 m2 : Machine}, v.Tied τ w →
      m1.Tied τ s1 m2 → Lands τ (operands.headD 0) m1 m2 →
      (∀ b, Outcome τ s1 (FlowsMatch τ) (f b m1) (g b m2)) →
      Outcome τ s1 (FlowsMatch τ) ((inspect v.isFalsy >>= f) m1) ((inspect w.isFalsy >>= g) m2) := by
    intro v w f g m1 m2 hv hm hlands h
    show Outcome τ s1 (FlowsMatch τ) (f (v.isFalsy m1.heap) m1) (g (w.isFalsy m2.heap) m2)
    rw [hv.corresponds.isFalsy_eq hm.heap.corresponds]
    exact h _
  have hpop : Agree τ s1 (FlowsMatch τ) (do discard pop; return .goOn) (do discard pop; return .goOn) :=
    Agree.pop.discard.bind fun _ _ _ => .pure .goOn
  cases op with
  | jump => exact outcome_jump hm hlands
  | jumpFalsy =>
    refine Agree.pop.bind_blind .pop .pop hm hlands fun v w m1 m2 hv hm hlands => htest hv hm hlands fun b => ?_
    cases b with
    | true => exact outcome_jump hm hlands
    | false => exact .ok .goOn hm
  | andJump =>
    refine Agree.top.bind_blind .top .top hm hlands fun v w m1 m2 hv hm hlands => htest hv hm hlands fun b => ?_
    cases b with
    | true => exact outcome_jump hm hlands
    | false => exact hpop m1 m2 hm
  | orJump =>
    refine Agree.top.bind_blind .top .top hm hlands fun v w m1 m2 hv hm hlands => htest hv hm hlands fun b => ?_
    cases b with
    | true => exact hpop m1 m2 hm
    | false => exact outcome_jump hm hlands
  | _ => cases hjump

section Steps

variable (hs : s1.Tied τ s2)

include hs

theorem agree_tick : Agree τ s1 Eq (tick s1) (tick s2) := by
  intro m1 m2 hm
  simp only [tick, hs.interval, hm.ticks]
  split
  · exact Agree.checkToken _ _ { hm with ticks := rfl }
  · exact .ok rfl { hm with ticks := rfl }

variable (hinv : i.op = .call → CallsAgree τ s1 inv1 inv2)

theorem agree_execute_const {xs ys : List Nat} (offset : Nat) (floor : Nat)
    (h : Option.Rel (Value.Corresponds τ.toCorrespondence) s1.program.constants[xs.headD 0]?
      s2.program.constants[ys.headD 0]?)
    (hnone : s1.program.constants[xs.headD 0]? = none → xs.headD 0 = ys.headD 0)
    (hlaw : ∀ v, s1.program.constants[xs.headD 0]? = some v → v.Obeys τ.law) :
    Agree τ s1 (FlowsMatch τ) (execute s1 inv1 floor ⟨offset, .const, xs⟩)
      (execute s2 inv2 floor ⟨offset, .const, ys⟩) := by
  simp only [execute, Instruction.first]
  generalize s1.program.constants[xs.headD 0]? = x, s2.program.constants[ys.headD 0]? = y at h hnone hlaw
  cases h with
  | none =>
    rw [hnone rfl]
    exact (Agree.fault (R := Eq) _).bind fun _ _ _ => .pure .goOn
  | some hv => exact (Agree.push hs (hv.tied (hlaw _ rfl))).bind fun _ _ _ => .pure .goOn

include hinv

/-- Instructions that are the same do the same. -/
theorem agree_execute_same (floor : Nat) (hconst : i.op ≠ .const) (hclosure : i.op ≠ .closure)
    (hjump : i.op.isJump = false) (hlaw : i.Lawful τ.law s1.program) :
    Agree τ s1 (FlowsMatch τ) (execute s1 inv1 floor i) (execute s2 inv2 floor i) := by
  obtain ⟨offset, op, operands⟩ := i
  have hend : Agree τ s1 (FlowsMatch τ) (pure .goOn) (pure .goOn) := .pure .goOn
  have hone : ∀ {x y : Exec Unit}, Agree τ s1 Eq x y →
      Agree τ s1 (FlowsMatch τ) (do x; return .goOn) (do y; return .goOn) :=
    fun h => h.bind fun _ _ _ => hend
  have hcompare : ∀ f g : Value → Value → Heap → Bool,
      (∀ {v w v' w' h1 h2}, h1.Tied τ h2 → v.Tied τ w → v'.Tied τ w' → g w w' h2 = f v v' h1) →
      Agree τ s1 (FlowsMatch τ)
        (do
          let rhs ← pop
          let lhs ← pop
          push s1 (.bool (← inspect (f lhs rhs)))
          return .goOn)
        (do
          let rhs ← pop
          let lhs ← pop
          push s2 (.bool (← inspect (g lhs rhs)))
          return .goOn) := by
    intro f g hsame
    refine Agree.pop.bind fun v w hv => Agree.pop.bind fun v' w' hv' => ?_
    refine (Agree.inspect fun h1 h2 hh => (hsame hh hv' hv).symm).bind fun b b' hb => ?_
    subst hb
    exact (Agree.push hs (.bool b)).bind fun _ _ _ => hend
  cases op with
  | const => exact absurd rfl hconst
  | closure => exact absurd rfl hclosure
  | pop => exact hone Agree.pop.discard
  | pushTrue | pushFalse => exact hone (Agree.push hs (.bool _))
  | pushUndefined => exact hone (Agree.push hs .undefined)
  | equal => exact hcompare _ _ fun hh hv hv' => hv.corresponds.equal_eq hh.corresponds hv'.corresponds
  | notEqual => exact hcompare _ _ fun hh hv hv' => congrArg Bool.not (hv.corresponds.equal_eq hh.corresponds hv'.corresponds)
  | negate => exact hone (Agree.produce hs fun v w hv => .ofExcept (Value.agree_negate hv))
  | complement => exact hone (Agree.produce hs fun v w hv => .ofExcept (Value.agree_complement hv))
  | logicalNot =>
    refine hone (Agree.compute hs fun v w hv => .inspect fun h1 h2 hh => ?_)
    rw [hv.corresponds.isFalsy_eq hh.corresponds]
    exact .bool _
  | binary =>
    simp only [execute]
    cases Operator.ofCode? _ with
    | none => exact hone (.fault _)
    | some op =>
      exact Agree.pop.bind fun _ _ hv => Agree.pop.bind fun _ _ hv' =>
        (Agree.onHeap (Value.agree_binary hs.limits op hv' hv)).bind fun _ _ hx =>
          (Agree.alloc hs).bind fun _ _ _ => hone (Agree.push hs hx)
  | jumpFalsy | andJump | orJump | jump => cases hjump
  | array =>
    -- the limit is checked before the items are taken
    refine (Agree.ofExcept (hs.limits.checkArray _)).bind fun _ _ hfits => (Agree.popMany _).bind fun _ _ hxs =>
      (Agree.alloc hs).bind fun _ _ _ => (Agree.onHeap (.array hxs.1 (hs.limits.permits.array _ ?_))).bind
        fun _ _ hv => hone (Agree.push hs hv)
    rwa [hxs.2.1]
  | map =>
    exact (Agree.popMany _).bind fun _ _ hxs =>
      (Agree.inspect fun h1 h2 hh => rel_pairUp hh hxs.1 .empty).bind fun _ _ hd => (Agree.alloc hs).bind fun _ _ _ =>
        (Agree.onHeap (.map hd)).bind fun _ _ hv => hone (Agree.push hs hv)
  | error => exact hone (Agree.produce hs fun v w hv => .pure (.error hv))
  | freeze => exact hone (Agree.produce hs fun v w hv => .onHeap (Value.agree_freeze hv))
  | index =>
    exact Agree.pop.bind fun _ _ hkey => Agree.pop.bind fun _ _ hv =>
      (Agree.examine fun h1 h2 hh => Value.agree_get hh hv hkey).bind fun _ _ hx => hone (Agree.push hs hx)
  | slice =>
    exact Agree.pop.bind fun _ _ hhigh => Agree.pop.bind fun _ _ hlow => Agree.pop.bind fun _ _ hv =>
      (Agree.onHeap (Value.agree_slice hs.limits.permits hv hlow hhigh)).bind fun _ _ hx => (Agree.alloc hs).bind fun _ _ _ =>
        hone (Agree.push hs hx)
  | call => exact hone (agree_call hs (hinv rfl) _ _)
  | ret =>
    rw [execute_ret, execute_ret]
    refine Agree.bind (.ite Agree.pop (.pure .undefined)) fun _ _ hv => ?_
    exact agree_leave hs floor hv
  | getGlobal => exact (Agree.getGlobal _).bind fun _ _ hv => hone (Agree.push hs hv)
  | setGlobal => exact Agree.pop.bind fun _ _ hv => hone (Agree.setGlobal _ hv)
  | setSelGlobal =>
    exact (Agree.popSelectors _).bind fun _ _ hx => (Agree.getGlobal _).bind fun _ _ hv =>
      hone (Agree.assignPart hv hx.1 hx.2)
  | getLocal => exact (Agree.getLocal _).bind fun _ _ hv => hone (Agree.push hs hv)
  | setLocal => exact Agree.pop.bind fun _ _ hv => hone (Agree.setLocal _ hv)
  | defineLocal => exact Agree.pop.bind fun _ _ hv => hone (Agree.defineLocal _ hv)
  | setSelLocal =>
    exact (Agree.popSelectors _).bind fun _ _ hx => (Agree.getLocal _).bind fun _ _ hv =>
      hone (Agree.assignPart hv hx.1 hx.2)
  | getFree =>
    exact (Agree.captured hs _).same fun _ hcell => (Agree.readCell hcell).bind fun _ _ hv => hone (Agree.push hs hv)
  | setFree =>
    exact Agree.pop.bind fun _ _ hv => (Agree.captured hs _).same fun cell _ => hone (Agree.writeCell cell hv)
  | captureFree => exact (Agree.captured hs _).same fun _ hcell => hone (Agree.capture hcell)
  | captureLocal => exact (Agree.captureLocal _).same fun _ hcell => hone (Agree.capture hcell)
  | setSelFree =>
    exact (Agree.popSelectors _).bind fun _ _ hx => (Agree.captured hs _).same fun _ hcell =>
      (Agree.readCell hcell).bind fun _ _ hv => hone (Agree.assignPart hv hx.1 hx.2)
  | getBuiltin =>
    simp only [execute]
    cases hb : Builtin.all[(⟨offset, .getBuiltin, operands⟩ : Instruction).first]? with
    | none => exact hone (.fault _)
    | some b => exact hone (Agree.push hs (.native (hlaw b hb)))
  | iterInit => exact hone (Agree.produce hs fun v w hv => .onHeap (Value.agree_iterate hv))
  | iterNext =>
    refine hone (Agree.compute hs fun v w hv => (Agree.onHeap (Value.agree_advance hv)).bind fun b b' hb => ?_)
    subst hb
    exact .pure (.bool b)
  | iterKey => exact hone (Agree.compute hs fun v w hv => .examine fun h1 h2 hh => Value.agree_iteratorKey hlaw hh hv)
  | iterValue => exact hone (Agree.compute hs fun v w hv => .examine fun h1 h2 hh => Value.agree_iteratorValue hh hv)
  | suspend => exact .pure .suspended

theorem agree_execute (floor : Nat) (hij : i.Corresponds τ.toCorrespondence s1.program s2.program j)
    (hjump : i.op.isJump = false) (hlaw : i.Lawful τ.law s1.program) :
    Agree τ s1 (FlowsMatch τ) (execute s1 inv1 floor i) (execute s2 inv2 floor j) := by
  cases hij with
  | same hconst hclosure => exact agree_execute_same hs hinv floor hconst hclosure hjump hlaw
  | const h hnone => exact agree_execute_const hs _ floor h hnone hlaw
  | closure h hnone hcells =>
    simp only [execute, Instruction.first, Instruction.second, ← hcells]
    exact (agree_makeClosure hs h hnone hlaw).bind fun _ _ _ => .pure .goOn

/-- An instruction does the same in machines that both go on where it may jump to. -/
theorem agree_fetched (floor : Nat) (hij : i.Corresponds τ.toCorrespondence s1.program s2.program j)
    (hlaw : i.Lawful τ.law s1.program) (hm : m1.Tied τ s1 m2) (hlands : i.op.isJump = true → Lands τ i.first m1 m2) :
    Outcome τ s1 (FlowsMatch τ) (execute s1 inv1 floor i m1) (execute s2 inv2 floor j m2) := by
  cases hjump : i.op.isJump with
  | true =>
    obtain rfl := hij.eq_of_isJump hjump
    exact agree_jump hjump hm (hlands hjump)
  | false => exact agree_execute hs hinv floor hij hjump hlaw m1 m2 hm

end Steps

section Cycles

variable (hs : s1.Tied τ s2) (hcode : τ.law.Follows s1.program)
  (hinv : CallsAgree τ s1 inv1 inv2)

include hs hcode hinv

/-- Both machines fetch an instruction and execute it. -/
theorem agree_cycle (floor : Nat) :
    Agree τ s1 (FlowsMatch τ) (fetch >>= execute s1 inv1 floor) (fetch >>= execute s2 inv2 floor) := by
  intro m1 m2 hm
  have hframes := hm.frames
  cases h1 : m1.frames with
  | nil =>
    rw [h1] at hframes
    have h2 : m2.frames = [] := List.forall₂_nil_left_iff.1 hframes
    rw [bind_error (fetch_none h1), bind_error (fetch_none h2)]
    exact .error hm
  | cons f rest =>
    rw [h1] at hframes
    obtain ⟨g, rest', hframe, hrest, h2⟩ := List.forall₂_cons_left_iff.1 hframes
    have hfetch1 := fetch_eq h1
    have hfetch2 := fetch_eq h2
    rw [hframe.next] at hfetch2
    rcases hs.runs.instruction hframe.func hframe.reached with ⟨i, j, hi, hj, hij⟩ | ⟨c, hi, hj⟩
    · rw [hi] at hfetch1
      rw [hj] at hfetch2
      rw [bind_ok hfetch1, bind_ok hfetch2]
      obtain ⟨hoffset, hnext⟩ := hij.next_eq
      obtain ⟨hreached, htarget⟩ := hs.runs.next hframe.func hframe.reached hi
      have hdepth := hm.depth
      rw [h1] at hdepth
      refine agree_fetched hs (fun _ => hinv) floor hij (hcode _ hframe.code _ i hi) { hm with
        frames := .cons ⟨hframe.func, hframe.code, hreached, hnext.symm, hoffset.symm, hframe.base⟩ hrest
        depth := hdepth } ?_
      · rintro hjump _ _ _ _ ⟨⟩ ⟨⟩
        exact htarget hjump
    · rw [hi] at hfetch1
      rw [hj] at hfetch2
      rw [bind_error hfetch1, bind_error hfetch2]
      exact .error hm

theorem agree_step (floor : Nat) : Agree τ s1 (FlowsMatch τ) (step s1 inv1 floor) (step s2 inv2 floor) :=
  (agree_tick hs).bind fun _ _ _ => agree_cycle hs hcode hinv floor

end Cycles

/-! ### Runs -/

section Runs

variable (hs : s1.Tied τ s2)

include hs

theorem places_eq (hm : m1.Tied τ s1 m2) (floor : Nat) : places s2 floor m2 = places s1 floor m1 := by
  simp only [places, ← hm.frames.length_eq, hs.files]
  have hframes := List.forall₂_take (m1.frames.length - floor) hm.frames
  generalize m1.frames.take _ = fs, m2.frames.take _ = gs at hframes
  induction hframes with
  | nil => rfl
  | cons hframe _ ih =>
    rw [List.map_cons, List.map_cons, ih, hframe.current, hs.runs.position hframe.func]

theorem agree_callValue {go1 go2 : Nat → Exec (Option Value)}
    (hgo : ∀ floor, Agree τ s1 (Option.Rel (Value.Tied τ)) (go1 floor) (go2 floor))
    (hinv : CallsAgree τ s1 inv1 inv2) (hv : v.Tied τ w) {args args' : List Value}
    (hargs : List.Forall₂ (Value.Tied τ) args args') :
    Agree τ s1 (Value.Tied τ) (callValue s1 go1 inv1 v args) (callValue s2 go2 inv2 w args') := by
  refine Agree.checkToken.bind fun _ _ _ => Agree.get fun m1 m2 hm => ?_
  rw [← hm.frames.length_eq, ← hargs.length_eq]
  refine (Agree.push hs hv).bind fun _ _ _ => (Agree.pushAll hs hargs).bind fun _ _ _ => ?_
  have hname := hv.typeName_eq
  cases hv with
  | function hf hfunction =>
    refine (agree_callFunction hs hf hfunction _ _).bind fun _ _ _ => (hgo _).bind fun x y hx => ?_
    cases hx with
    | none => exact .pure .undefined
    | some h => exact .pure h
  | native hf => exact (agree_callNative hs hinv hf _).bind fun _ _ _ => Agree.pop
  | _ =>
    simp only [hname]
    exact .fault _

omit hs in
theorem agree_guarded {x y : Exec Value} (h : Agree τ s1 (Value.Tied τ) x y) :
    Agree τ s1 (Value.Tied τ) (guarded x) (guarded y) := by
  intro m1 m2 hm
  have h := h m1 m2 hm
  simp only [guarded, unwinding, ← hm.stack.size_eq, ← hm.frames.length_eq]
  generalize x m1 = r1, y m2 = r2 at h
  cases h with
  | ok h hm => exact .ok h hm
  | @error e m1' m2' hm' =>
    cases e with
    | failure f =>
      refine .error { hm' with
        stack := hm'.stack.shrink _
        room := Nat.le_trans (by simp [unwind]) hm'.room
        cells := hm'.cells.shrink _
        places := Nat.le_trans (by simp [unwind]) hm'.places
        frames := ?_
        depth := Nat.le_trans (List.drop_sublist _ _).length_le hm'.depth }
      simp only [unwind, ← hm'.frames.length_eq]
      exact List.forall₂_drop _ hm'.frames
    | outOfFuel => exact .error hm'
  | excused h => exact .excused h

variable (hcode : τ.law.Follows s1.program)

include hcode

/-- Loops and calls with the same fuel do the same. -/
theorem agree_loops (fuel : Nat) :
    (∀ floor, Agree τ s1 (Option.Rel (Value.Tied τ)) (runLoop s1 fuel floor) (runLoop s2 fuel floor)) ∧ CallsAgree τ s1 (invoke s1 fuel) (invoke s2 fuel) := by
  induction fuel with
  | zero => exact ⟨fun _ _ _ hm => .error hm, fun _ _ _ _ _ _ _ _ hm => .error hm⟩
  | succ fuel ih =>
    obtain ⟨hgo, hinv⟩ := ih
    refine ⟨fun floor m1 m2 hm => ?_, fun v w args args' hv hargs => ?_⟩
    · have hstep := agree_step hs hcode hinv floor m1 m2 hm
      simp only [runLoop]
      generalize step s1 _ _ m1 = r1, step s2 _ _ m2 = r2 at hstep
      cases hstep with
      | ok h hm =>
        cases h with
        | goOn => exact hgo floor _ _ hm
        | returned hv => exact .ok (.some hv) hm
        | suspended => exact .ok .none hm
      | @error e _ _ hm =>
        cases e with
        | outOfFuel => exact .error hm
        | failure f =>
          dsimp only
          rw [places_eq hs hm]
          exact .error hm
      | excused h => exact .excused h
    · exact agree_guarded (agree_callValue hs hgo hinv hv hargs)

variable (hmain : τ.law.code s1.program.main)

include hmain

omit hcode in
/-- The main function is the first call. -/
theorem outcome_begin (hm : (m1.reset s1).Tied τ s1 (m2.reset s2)) :
    Outcome τ s1 Eq ((do checkToken; enter s1 s1.program.main 0 : Exec Unit) (m1.reset s1))
      ((do checkToken; enter s2 s2.program.main 0 : Exec Unit) (m2.reset s2)) := by
  have hfirst := outcome_enter hs hs.main hmain 0 hm (Nat.lt_of_lt_of_le Nat.one_pos (Nat.le_max_left _ _))
  show Outcome τ s1 Eq (EStateM.bind checkToken _ _) (EStateM.bind checkToken _ _)
  simp only [EStateM.bind, checkToken, hm.token]
  cases (m1.reset s1).token.check with
  | ok _ => exact hfirst
  | error f => exact .error hm

theorem outcome_start (fuel : Nat) (hm : (m1.reset s1).Tied τ s1 (m2.reset s2)) :
    Outcome τ s1 (Option.Rel (Value.Tied τ)) (start s1 fuel (m1.reset s1)) (start s2 fuel (m2.reset s2)) := by
  have heq : ∀ s, start s fuel = (do checkToken; enter s s.program.main 0 : Exec Unit) >>= fun _ => runLoop s fuel 0 :=
    fun s => by rw [start, bind_assoc]
  rw [heq, heq]
  exact (outcome_begin hs hmain hm).next fun _ _ _ _ _ hm _ _ => (agree_loops hs hcode fuel).1 0 _ _ hm

/-- Runs that start from tied machines do the same. -/
theorem outcome_run (fuel : Nat) (hm : (m1.reset s1).Tied τ s1 (m2.reset s2)) :
    Outcome τ s1 (Value.Tied τ) (Machine.run s1 fuel m1) (Machine.run s2 fuel m2) := by
  have h := outcome_start hs hcode hmain fuel hm
  simp only [Machine.run]
  generalize start s1 fuel _ = r1, start s2 fuel _ = r2 at h
  cases h with
  | ok h hm =>
    refine .ok ?_ { hm with status := rfl }
    cases h with
    | none => exact .undefined
    | some h => exact h
  | @error e _ _ hm =>
    cases e with
    | outOfFuel => exact .error hm
    | failure f =>
      exact .error { hm with
        stack := .empty, room := Nat.zero_le _, frames := .nil, depth := Nat.zero_le _, status := rfl }
  | excused h => exact .excused h

end Runs

end Exec

/-! ### Machines that correspond -/

/-- What two machines hold before a run corresponds. -/
structure Machine.Corresponds (κ : Correspondence) (m1 m2 : Machine) : Prop where
  heap : m1.heap.Corresponds κ m2.heap
  contents : Pointwise (Value.Corresponds κ) m1.heap.cells m2.heap.cells
  newFunction : ∀ k, κ.ids (m1.heap.functions + k) = m2.heap.functions + k
  globals : Pointwise (Value.Corresponds κ) m1.globals m2.globals
  token : m2.token = m1.token

/-- Runs that start from machines that correspond do the same. -/
theorem Exec.agree_run (hs : s1.Corresponds κ s2) (fuel : Nat) (hm : m1.Corresponds κ m2)
    (hτ : τ = κ.tie m1.globals.size s1.limits.maxAllocs s2.limits.maxAllocs) :
    Outcome τ s1 (Value.Tied τ) (Machine.run s1 fuel m1) (Machine.run s2 fuel m2) := by
  subst hτ
  exact outcome_run (hs.tied _) (ValueLaw.follows_anything _) trivial fuel
    { heap := ⟨⟨hm.heap, m1.heap.obeys_anything⟩, hm.contents, hm.newFunction⟩
      globals := hm.globals.imp fun _ _ h => h.free
      count := rfl
      stack := .empty
      room := Nat.zero_le _
      cells := .empty
      places := Nat.zero_le _
      captures := .empty
      frames := .nil
      depth := Nat.zero_le _
      allocs := ⟨0, spent_zero _, spent_zero _⟩
      ticks := rfl
      token := hm.token
      status := rfl }

/-! ### Ends of runs -/

/-- The values that two machines are left with correspond, and as many can still be allocated. -/
structure Machine.LeftAlike (κ : Correspondence) (m1 m2 : Machine) : Prop where
  heap : m1.heap.Corresponds κ m2.heap
  globals : Pointwise (Value.Corresponds κ) m1.globals m2.globals
  allocs : m2.allocs = m1.allocs

/-- Two runs end with values that correspond or with the same failure, trace included, and leave machines
alike. -/
inductive Machine.EndAlike (κ : Correspondence) :
    EStateM.Result Halt Machine Value → EStateM.Result Halt Machine Value → Prop where
  | value {v w : Value} {m1 m2 : Machine} (hv : v.Corresponds κ w) (hm : m1.LeftAlike κ m2) :
      EndAlike κ (.ok v m1) (.ok w m2)
  | halt {e : Halt} {m1 m2 : Machine} (hm : m1.LeftAlike κ m2) : EndAlike κ (.error e m1) (.error e m2)

theorem Exec.Outcome.endAlike {s : Setting} {a : Int} {r1 r2 : EStateM.Result Halt Machine Value}
    (h : Exec.Outcome (κ.tie n a a) s (Value.Tied (κ.tie n a a)) r1 r2) (hstrict : κ.IsStrict) : Machine.EndAlike κ r1 r2 := by
  have hleft : ∀ {m1 m2 : Machine}, m1.Tied (κ.tie n a a) s m2 → m1.LeftAlike κ m2 := by
    intro m1 m2 hm
    obtain ⟨n, h1, h2⟩ := hm.allocs
    exact ⟨hm.heap.corresponds, hm.globals.corresponds, h2.unique h1⟩
  cases h with
  | ok hv hm => exact .value hv.corresponds (hleft hm)
  | error hm => exact .halt (hleft hm)
  | excused h => exact absurd h (hstrict _)

end ScriptEngine
