import ScriptEngine.Proofs.Machine.Standing
/-!
# Where failures come from

A failure gets the places of calls on its way out: each loop adds those above its floor, and between two
loops the calls above the inner floor are taken away. Main statement: in a run of a compiled program whose
host hands failures on, the failure at the end has the cause of the first one and lists all calls that were
active then, the innermost first and each of them once (`Configuration.trace_of_run`).
-/

namespace ScriptEngine

variable {f : Failure} {i : Instruction} {args : List Value} {p : List Waiting} {m m' : Machine} {floor n : Nat}
  {s : Setting} {callee v : Value} {law : ValueLaw}

/-- At least as many calls are active as before. -/
def Machine.Deeper (m m' : Machine) : Prop := m.frames.length ≤ m'.frames.length

theorem lively_deeper : Lively Machine.Deeper where
  kept h := Nat.le_of_eq (by rw [h.frames])
  trans := Nat.le_trans
  enter _ _ := Nat.le_succ _
  swap _ h := Nat.le_of_eq (by rw [h]; rfl)

namespace Exec

/-- The outcome of a step above a floor: there are calls above the floor, or just no more. A failure has no
places yet. -/
def Deep (floor : Nat) : EStateM.Result Halt Machine Pause → Prop
  | .ok (.flow (.returned _)) m => m.frames.length = floor
  | .ok _ m => floor < m.frames.length
  | .error (.failure f) m => floor ≤ m.frames.length ∧ f.trace = none
  | .error .outOfFuel _ => False

theorem deep_of_settles {r : EStateM.Result Halt Machine Pause} (hm : floor < m.frames.length)
    (h : Settles Machine.Deeper m r) (hreturned : ∀ v m', r ≠ .ok (.flow (.returned v)) m') : Deep floor r := by
  cases h with
  | @ok pause m' h =>
    have hlt : floor < m'.frames.length := Nat.lt_of_lt_of_le hm h
    cases pause with
    | native f args => exact hlt
    | flow flow =>
      cases flow with
      | returned v => exact absurd rfl (hreturned v m')
      | goOn | suspended => exact hlt
  | fault h => exact ⟨Nat.le_trans (Nat.le_of_lt hm) h, rfl⟩

/-- A return takes one call away. -/
theorem deep_leave (hm : floor < m.frames.length) :
    Deep floor ((do return .flow (← leave s floor v) : Exec Pause) m) := by
  cases hframes : m.frames with
  | nil =>
    rw [hframes] at hm
    exact absurd hm (Nat.not_lt_zero _)
  | cons f rest =>
    rw [hframes] at hm
    have hle : floor ≤ rest.length := Nat.le_of_lt_succ hm
    by_cases hdone : rest.length ≤ floor
    · have hleave : leave s floor v m = .ok (.returned v) { m with
          frames := rest, stack := m.stack.shrink (f.base - 1), cells := m.cells.shrink f.base } := by
        rw [leave, hframes]
        exact if_pos hdone
      rw [bind_ok hleave]
      exact Nat.le_antisymm hdone hle
    · have hleave : leave s floor v m = (do push s v; return .goOn : Exec Flow) { m with
          frames := rest, stack := m.stack.shrink (f.base - 1), cells := m.cells.shrink f.base } := by
        rw [leave, hframes]
        exact if_neg hdone
      rcases (Within.push (s := s) calm_kept v).cases { m with
        frames := rest, stack := m.stack.shrink (f.base - 1), cells := m.cells.shrink f.base } with
        ⟨u, m', hr, h⟩ | ⟨c, m', hr, h⟩
      · rw [bind_ok (hleave.trans (bind_ok hr))]
        exact Nat.lt_of_not_le (h.frames ▸ hdone)
      · rw [bind_error (hleave.trans (bind_error hr))]
        exact ⟨h.frames ▸ hle, rfl⟩

/-- Only one instruction returns. -/
theorem op_of_returned {inv : Invoke} (h : execute s inv floor i m = .ok (.returned v) m') : i.op = .ret := by
  obtain ⟨offset, op, operands⟩ := i
  cases op with
  | ret => rfl
  | suspend => cases h
  | _ => exact Flow.noConfusion (ensures_execute (fun h => by cases h) (fun h => by cases h) m _ m' h)

theorem approach_ne_returned : approach s n m ≠ .ok (.flow (.returned v)) m' := by
  intro hr
  rcases approach_ok hr with ⟨_, _, _, h⟩ | ⟨_, _, _, _, h⟩ <;> cases h

theorem deep_advance (hm : floor < m.frames.length) : Deep floor (advance s floor i m) := by
  by_cases hret : i.op = .ret
  · obtain ⟨offset, op, operands⟩ := i
    cases hret
    have hadvance : advance s floor ⟨offset, .ret, operands⟩ =
        returned (operands.headD 0) >>= fun v => (do return .flow (← leave s floor v) : Exec Pause) := by
      rw [advance, if_neg (fun h => by cases h), execute_ret, bind_assoc]
    have hreturned : Within Machine.Kept (returned (operands.headD 0)) := .ite (.pop calm_kept) (.pure calm_kept _)
    rw [hadvance]
    rcases hreturned.cases m with ⟨v, m', hr, h⟩ | ⟨c, m', hr, h⟩
    · rw [bind_ok hr]
      exact deep_leave (h.frames ▸ hm)
    · rw [bind_error hr]
      exact ⟨h.frames ▸ Nat.le_of_lt hm, rfl⟩
  · refine deep_of_settles hm (Within.advance lively_deeper (fun h => absurd h hret) m) fun v m' hr => ?_
    rw [advance] at hr
    split at hr
    · obtain ⟨n, m₁, hn, hr⟩ := bind_eq_ok hr
      exact approach_ne_returned hr
    · obtain ⟨flow, m₁, hflow, hr⟩ := bind_eq_ok hr
      cases hr
      exact hret (op_of_returned hflow)

theorem deeper_tick : Within Machine.Deeper (tick s) := by
  intro m
  rw [tick]
  split
  · have hreset : m.Deeper { m with ticks := 0 } := Nat.le_refl _
    exact .trans lively_deeper.toCalm hreset (Within.checkToken lively_deeper.toCalm _)
  · exact .ok (Nat.le_refl _)

/-- A step above a floor. -/
theorem deep_begin (hm : floor < m.frames.length) : Deep floor (begin s floor m) := by
  have hbegin : begin s floor = (do tick s; fetch : Exec Instruction) >>= advance s floor := (bind_assoc _ _ _).symm
  rw [hbegin]
  rcases (Within.next lively_deeper.toCalm (deeper_tick (s := s)) (.fetch lively_deeper)).cases m with
    ⟨i, m', hr, h⟩ | ⟨c, m', hr, h⟩
  · rw [bind_ok hr]
    exact deep_advance (Nat.lt_of_lt_of_le hm h)
  · rw [bind_error hr]
    exact ⟨Nat.le_trans (Nat.le_of_lt hm) h, rfl⟩

/-- A call from outside gets a frame of its own, or it fails before that. -/
theorem callFunction_apart (s : Setting) (f : Function) (n : Nat) (m : Machine) :
    (∃ m' base, callFunction s f n false m = .ok () m' ∧ m'.frames = { func := f, base } :: m.frames) ∨
      ∃ cause m', callFunction s f n false m = .error (.failure { cause }) m' ∧ m'.frames = m.frames := by
  rw [callFunction_eq]
  rcases (Within.collectRest (s := s) calm_kept f n).cases m with ⟨n', m₁, hr, hkept⟩ | ⟨c, m₁, hr, hkept⟩
  · have hbegin : beginCall s f false n' m₁ =
        if n' ≠ f.parameters then fault (.wrongArgumentCount (Text.decimal f.parameters) n') m₁
        else if s.config.maxFrames ≤ m₁.frames.length then fault .stackOverflow m₁
        else enter s f (m₁.stack.size - n') m₁ := rfl
    rw [bind_ok hr, hbegin]
    split
    · exact .inr ⟨_, _, rfl, hkept.frames⟩
    · split
      · exact .inr ⟨_, _, rfl, hkept.frames⟩
      · rcases (Within.reserveLocals (s := s) calm_kept f (m₁.stack.size - n')).cases m₁ with
          ⟨u, m₂, hr2, hkept2⟩ | ⟨c, m₂, hr2, hkept2⟩
        · exact .inl ⟨_, _, bind_ok hr2, congrArg (List.cons _) (hkept2.frames.trans hkept.frames)⟩
        · exact .inr ⟨_, _, bind_error hr2, hkept2.frames.trans hkept.frames⟩
  · exact .inr ⟨_, _, bind_error hr, hkept.frames⟩

end Exec

/-! ### What waits, and how many calls there are -/

/-- What waits fits a number of calls: it is the floor of a loop whose result is waited for, or the number
of calls when that result comes. -/
def Nested : (inLoop : Bool) → List Waiting → Nat → Prop
  | true, [], n => n = 0
  | false, [], _ => True
  | _, .host _ depth _ :: p, n => n = depth ∧ p ≠ [] ∧ Nested false p n
  | false, .instruction floor :: p, n => floor < n ∧ Nested true p floor
  | false, .outside :: p, n => p ≠ [] ∧ Nested true p n
  | true, _ :: _, _ => False

theorem Nested.relax (h : Nested true p n) : Nested false p n := by
  cases p with
  | nil => trivial
  | cons w p =>
    cases w with
    | host height depth next => exact h
    | instruction floor | outside => exact h.elim

/-- Nothing waits when there are no calls. -/
theorem Nested.eq_nil (h : Nested false p 0) : p = [] := by
  induction p with
  | nil => rfl
  | cons w p ih =>
    cases w with
    | host height depth next => exact absurd (ih h.2.2) h.2.1
    | instruction floor => exact absurd h.1 (Nat.not_lt_zero _)
    | outside => exact absurd (ih h.2.relax) h.1

/-- What is done obeys a law. -/
def Doing.Obeys (law : ValueLaw) : Doing → Prop
  | .call callee args => callee.Obeys law ∧ ∀ v ∈ args, v.Obeys law
  | .body f args => law.native f ∧ ∀ v ∈ args, v.Obeys law
  | .act a => a.Obeys law
  | .give (.ok v) => v.Obeys law
  | _ => True

/-- What waits obeys a law. -/
def Waiting.Obeys (law : ValueLaw) : Waiting → Prop
  | .host _ _ next => (∀ v, v.Obeys law → (next (.ok v)).Obeys law) ∧ ∀ f, (next (.error f)).Obeys law
  | _ => True

/-- What is done fits what waits and the number of calls. -/
def Doing.Nested (p : List Waiting) (n : Nat) : Doing → Prop
  | .run floor => floor < n ∧ ScriptEngine.Nested true p floor
  | .call _ _ => p ≠ [] ∧ ScriptEngine.Nested true p n
  | .body _ _ | .act _ => p ≠ [] ∧ ScriptEngine.Nested false p n
  | .give (.ok _) => ScriptEngine.Nested false p n
  | .give (.error _) => False

namespace Configuration

open Exec

/-- Whether a failure is on its way out. -/
def fails (c : Configuration) : Bool :=
  match c.doing with
  | .give (.error _) => true
  | _ => false

/-- A run of a certified program before any failure. -/
structure Sound (law : ValueLaw) (k : Screen) (globals : Nat) (s : Setting) (c : Configuration) : Prop where
  doing : c.doing.Obeys law
  waiting : ∀ w ∈ c.waiting, w.Obeys law
  machine : c.machine.Orderly s law
  stand : c.waiting ≠ [] ∨ (∃ floor, c.doing = .run floor) → Stand k s.program globals c.machine.frames
  nested : c.doing.Nested c.waiting c.machine.frames.length

/-! ### The way out -/

/-- A failure on its way out, which came up in the machine `M`: the calls below the number `n` are those of
that machine, and the failure lists the others. -/
structure Owes (s : Setting) (M : Machine) (n : Nat) (f : Failure) (p : List Waiting) (m : Machine) : Prop where
  depth : n ≤ m.frames.length
  origin : n ≤ M.frames.length
  same : m.frames.drop (m.frames.length - n) = M.frames.drop (M.frames.length - n)
  listed : f.trace.getD [] = places s n M
  traced : p = [] → f.trace.isSome = true
  nested : Nested true p n ∨ m.frames.length = n ∧ p ≠ [] ∧ Nested false p n

variable {k : Screen} {globals : Nat} {c d : Configuration} {w : Waiting} {M : Machine}

/-- A failure leaves the loop in which it came up. -/
theorem Owes.ofLoop (hf : f.trace = none) (hfloor : floor ≤ m.frames.length) (hp : Nested true p floor) :
    Owes s m floor (f.addTrace (places s floor m)) p m where
  depth := hfloor
  origin := hfloor
  same := rfl
  listed := by simp [Failure.addTrace, hf]
  traced _ := rfl
  nested := .inl hp

/-- A failure comes up outside of the loops. -/
theorem Owes.ofOutside (hf : f.trace = none) (hne : p ≠ []) (hp : Nested false p m.frames.length) :
    Owes s m m.frames.length f p m where
  depth := Nat.le_refl _
  origin := Nat.le_refl _
  same := rfl
  listed := by simp [hf, places]
  traced h := absurd h hne
  nested := .inr ⟨rfl, hne, hp⟩

/-- The calls above a floor are those above a number of calls and those between. -/
theorem places_append (hsame : m.frames = M.frames.drop (M.frames.length - n)) (hfloor : floor ≤ n)
    (hn : n ≤ M.frames.length) : places s n M ++ places s floor m = places s floor M := by
  have hsplit : M.frames.length - floor = (M.frames.length - n) + (n - floor) := by omega
  have hlength : m.frames.length = n := by
    rw [hsame, List.length_drop]
    omega
  rw [places, places, places, ← List.map_append, hlength, hsplit, List.take_add, hsame]

/-- Once the calls above are gone, those below are those of the machine where the failure came up. -/
theorem Owes.frames_eq (h : Owes s M n f p m) (hn : m.frames.length = n) :
    m.frames = M.frames.drop (M.frames.length - n) := by
  rw [← h.same, hn, Nat.sub_self, List.drop_zero]

/-- A failure that reaches a function of the host loses the calls that it has listed. -/
theorem Owes.unwind (h : Owes s M n f (w :: p) m) (hne : p ≠ []) (hp : Nested false p n) (height : Nat) :
    Owes s M n f p (Exec.unwind height n m) := by
  have hdepth := h.depth
  have hlength : (Exec.unwind height n m).frames.length = n := by
    simp only [Exec.unwind, List.length_drop]
    omega
  refine ⟨Nat.le_of_eq hlength.symm, h.origin, ?_, h.listed, fun hnil => absurd hnil hne, .inr ⟨hlength, hne, hp⟩⟩
  rw [hlength, Nat.sub_self]
  exact h.same

/-- A failure that leaves a further loop gets the places of the calls between the floors. -/
theorem Owes.leave (h : Owes s M n f (w :: p) m) (hn : m.frames.length = n) (hfloor : floor < n) (hp : Nested true p floor) :
    Owes s M floor (f.addTrace (places s floor m)) p m where
  depth := by omega
  origin := Nat.le_trans (Nat.le_of_lt hfloor) h.origin
  same := by
    rw [h.frames_eq hn, List.length_drop, List.drop_drop]
    congr 1
    omega
  listed := by
    show f.trace.getD [] ++ places s floor m = _
    rw [h.listed]
    exact places_append (h.frames_eq hn) (Nat.le_of_lt hfloor) h.origin
  traced _ := rfl
  nested := .inl hp

/-- A failure goes out through all that waits and has listed all calls in the end. The induction is on what
waits. -/
theorem Owes.leads (h : Owes s M n f p m) (hp : ∀ w ∈ p, w.Propagates (·.trace = none)) :
    ∃ m', Leads s ⟨.give (.error (.failure f)), p, m⟩
      ⟨.give (.error (.failure { cause := f.cause, trace := some (places s 0 M) })), [], m'⟩ := by
  induction p generalizing n f m with
  | nil =>
    have hn : n = 0 := h.nested.resolve_right fun hne => hne.2.1 rfl
    have htrace : f.trace = some (places s 0 M) := by
      have hlisted := h.listed
      have htraced := h.traced rfl
      cases hf : f.trace with
      | none =>
        rw [hf] at htraced
        cases htraced
      | some places =>
        rw [hf, hn] at hlisted
        exact congrArg some hlisted
    rw [← htrace]
    exact ⟨m, .refl _⟩
  | cons w p ih =>
    obtain ⟨hw, hrest⟩ := List.forall_mem_cons.1 hp
    -- a function of the host hands the failure on
    have hhost : ∀ height depth next, w = .host height depth next → n = depth ∧ p ≠ [] ∧ Nested false p n →
        ∃ m', Leads s ⟨.give (.error (.failure f)), w :: p, m⟩
          ⟨.give (.error (.failure { cause := f.cause, trace := some (places s 0 M) })), [], m'⟩ := by
      rintro height depth next rfl ⟨rfl, hne, hnested⟩
      obtain ⟨m', hleads⟩ := ih (h.unwind hne hnested height) hrest
      have hgive : Configuration.next s ⟨.give (.error (.failure f)), .host height n next :: p, m⟩ =
          some ⟨.act (.done (.error f)), p, Exec.unwind height n m⟩ := by
        rw [← hw.1 f]
        rfl
      exact ⟨m', .step hgive (.step rfl hleads)⟩
    cases w with
    | host height depth next => exact hhost height depth next rfl (h.nested.elim id (·.2.2))
    | instruction floor =>
      obtain ⟨hn, -, hfloor, hnested⟩ := h.nested.resolve_left id
      obtain ⟨m', hleads⟩ := ih (h.leave hn hfloor hnested) hrest
      exact ⟨m', .step rfl hleads⟩
    | outside =>
      obtain ⟨hn, -, hne, hnested⟩ := h.nested.resolve_left id
      obtain ⟨m', hleads⟩ := ih { h with traced := fun hnil => absurd hnil hne, nested := .inl hnested } hrest
      exact ⟨m', .step rfl hleads⟩

/-! ### Steps before the first failure -/

/-- What comes next: the run goes on, or the first failure is on its way out. -/
def Proceeds (law : ValueLaw) (k : Screen) (globals : Nat) (s : Setting) (d : Configuration) : Prop :=
  d.Sound law k globals s ∨
    ∃ f n, d.doing = .give (.error (.failure f)) ∧ Owes s d.machine n f d.waiting d.machine

theorem Sound.fails_eq (hc : c.Sound law k globals s) : c.fails = false := by
  obtain ⟨doing, p, m⟩ := c
  cases doing with
  | give r =>
    cases r with
    | ok v => rfl
    | error h => exact hc.nested.elim
  | _ => rfl

section Steps

variable (htrusts : law.Trusts k globals s)

include htrusts

theorem proceeds_run (hc : Sound law k globals s ⟨.run floor, p, m⟩) :
    Proceeds law k globals s (inLoop s floor p (begin s floor m)) := by
  obtain ⟨hfloor, hnested⟩ := hc.nested
  have hdeep := deep_begin (s := s) hfloor
  cases hr : begin s floor m with
  | error h m' =>
    rw [hr] at hdeep
    cases h with
    | failure f => exact .inr ⟨_, floor, rfl, .ofLoop hdeep.2 hdeep.1 hnested⟩
    | outOfFuel => exact hdeep.elim
  | ok pause m' =>
    rw [hr] at hdeep
    obtain ⟨hm', hpause, hstand, hsuspended⟩ := stand_begin htrusts hc.machine (hc.stand (.inr ⟨floor, rfl⟩)) hr
    refine .inl ?_
    cases pause with
    | native g args =>
      exact ⟨hpause, List.forall_mem_cons.2 ⟨trivial, hc.waiting⟩, hm', fun _ => hstand (fun h => by cases h),
        ⟨List.cons_ne_nil _ _, hdeep, hnested⟩⟩
    | flow flow =>
      cases flow with
      | goOn => exact ⟨trivial, hc.waiting, hm', fun _ => hstand (fun h => by cases h), hdeep, hnested⟩
      | returned v =>
        refine ⟨hpause, hc.waiting, hm', fun _ => hstand (fun h => by cases h), ?_⟩
        show Nested false p m'.frames.length
        rw [show m'.frames.length = floor from hdeep]
        exact hnested.relax
      | suspended =>
        -- the outermost call ended the run, so nothing waits
        have hone := hsuspended rfl
        have hzero : floor = 0 := by
          omega
        subst hzero
        have hnil := hnested.relax.eq_nil
        subst hnil
        refine ⟨trivial, hc.waiting, hm', ?_, trivial⟩
        rintro (h | ⟨_, h⟩)
        · exact absurd rfl h
        · cases h

omit htrusts in
/-- A failure that comes up outside of the loops. -/
theorem proceeds_fault {c : Fault} (hne : p ≠ []) (hnested : Nested false p m.frames.length)
    (hframes : m'.frames = m.frames) : Proceeds law k globals s ⟨.give (.error (.failure { cause := c })), p, m'⟩ := by
  refine .inr ⟨_, m'.frames.length, rfl, .ofOutside rfl hne ?_⟩
  rw [hframes]
  exact hnested

omit htrusts in
/-- What leaves the calls alone and keeps the law. -/
theorem settled_cases {α : Type} {R : α → Prop} {x : Exec α} (hwithin : Within Machine.Kept x)
    (hkeeps : Keeps s law R x) (hm : m.Orderly s law) :
    (∃ a m', x m = .ok a m' ∧ R a ∧ m'.Orderly s law ∧ m'.frames = m.frames) ∨
      ∃ cause m', x m = .error (.failure { cause }) m' ∧ m'.frames = m.frames := by
  rcases hwithin.cases m with ⟨a, m', hr, hkept⟩ | ⟨c, m', hr, hkept⟩
  · have hleaving := hkeeps.leaving hm hr
    exact .inl ⟨a, m', hr, hleaving.1, hleaving.2.orderly, hkept.frames⟩
  · exact .inr ⟨c, m', hr, hkept.frames⟩

omit htrusts in
/-- What settles outside of the loops. -/
theorem proceeds_give {x : Exec Value} (hwithin : Within Machine.Kept x) (hkeeps : Keeps s law (Value.Obeys law) x)
    (hwaiting : ∀ w ∈ p, w.Obeys law) (hm : m.Orderly s law) (hstand : Stand k s.program globals m.frames) (hne : p ≠ [])
    (hnested : Nested false p m.frames.length) : Proceeds law k globals s (give p (x m)) := by
  rcases settled_cases hwithin hkeeps hm with ⟨v, m', hr, hv, hm', hframes⟩ | ⟨c, m', hr, hframes⟩ <;> rw [hr]
  · rw [← hframes] at hstand hnested
    exact .inl ⟨hv, hwaiting, hm', fun _ => hstand, hnested⟩
  · exact proceeds_fault hne hnested hframes

theorem proceeds_afterOffer (hcallee : callee.Obeys law) (hwaiting : ∀ w ∈ p, w.Obeys law) (hm : m.Orderly s law)
    (hstand : Stand k s.program globals m.frames) (hne : p ≠ []) (hnested : Nested true p m.frames.length) :
    Proceeds law k globals s (afterOffer s m.frames.length n p m callee) := by
  cases callee with
  | function g =>
    unfold afterOffer
    dsimp only
    rcases callFunction_apart s g n m with ⟨m', base, hcall, hframes⟩ | ⟨cause, m', hcall, hframes⟩
    · rw [hcall]
      have hkeeps := (Keeps.callFunction htrusts.governs hcallee n false).leaving hm hcall
      refine .inl ⟨trivial, hwaiting, hkeeps.2.orderly, fun _ => stand_callFunction (htrusts.function g hcallee) hstand hcall, ?_,
        hnested⟩
      rw [hframes]
      exact Nat.lt_succ_self _
    · rw [hcall]
      exact proceeds_fault hne hnested.relax hframes
  | native g =>
    unfold afterOffer
    rcases settled_cases (.takeArguments calm_kept n) (.takeArguments n) hm with
      ⟨args, m', hr, hargs, hm', hframes⟩ | ⟨c, m', hr, hframes⟩ <;> rw [hr]
    · rw [← hframes] at hstand hnested
      exact .inl ⟨⟨hcallee, fun v hv => hargs v (Array.mem_toList_iff.1 hv)⟩,
        List.forall_mem_cons.2 ⟨trivial, hwaiting⟩, hm', fun _ => hstand, List.cons_ne_nil _ _, hne, hnested⟩
    · exact proceeds_fault hne hnested.relax hframes
  | _ => exact proceeds_fault hne hnested.relax rfl

theorem proceeds_call (hc : Sound law k globals s ⟨.call callee args, p, m⟩) :
    Proceeds law k globals s (callNext s p m callee args) := by
  obtain ⟨hcallee, hargs⟩ := hc.doing
  obtain ⟨hne, hnested⟩ := hc.nested
  have hstand := hc.stand (.inl hne)
  unfold callNext
  rcases settled_cases (.offer calm_kept callee args) (.offer htrusts.governs hcallee hargs) hc.machine with
    ⟨u, m', hr, -, hm', hframes⟩ | ⟨c, m', hr, hframes⟩ <;> rw [hr]
  · rw [← hframes] at hstand hnested ⊢
    exact proceeds_afterOffer htrusts hcallee hc.waiting hm' hstand hne hnested
  · exact proceeds_fault hne hnested.relax hframes

theorem proceeds_body {g : Native} (hc : Sound law k globals s ⟨.body g args, p, m⟩)
    (hnext : next s ⟨.body g args, p, m⟩ = some d) : Proceeds law k globals s d := by
  obtain ⟨hg, hargs⟩ := hc.doing
  obtain ⟨hne, hnested⟩ := hc.nested
  have hstand := hc.stand (.inl hne)
  cases g with
  | builtin b =>
    cases hnext
    have htied := Builtin.agree_call (Value.Obeys.tied_list hargs) (htrusts.governs.permits.tied (n := 0) (a := 0)) b
    exact proceeds_give (.onHeap calm_kept _) (.onHeap htied.keeps) hc.waiting
      hc.machine hstand hne hnested
  | host name =>
    cases hnext
    exact .inl ⟨htrusts.governs.host name args hg hargs, hc.waiting, hc.machine, fun _ => hstand, hne, hnested⟩

omit htrusts in
theorem proceeds_act {a : HostAction} (hc : Sound law k globals s ⟨.act a, p, m⟩) (ha : a.Propagates (·.trace = none)) :
    Proceeds law k globals s (actNext s p m a) := by
  have hobeys : a.Obeys law := hc.doing
  obtain ⟨hne, hnested⟩ := hc.nested
  have hstand := hc.stand (.inl hne)
  cases a with
  | done r =>
    cases r with
    | ok v => exact .inl ⟨hobeys, hc.waiting, hc.machine, fun _ => hstand, hnested⟩
    | error f => exact .inr ⟨f, m.frames.length, rfl, .ofOutside ha hne hnested⟩
  | call callee args next =>
    obtain ⟨hcallee, hargs, hok, herror⟩ := hobeys
    unfold actNext
    dsimp only
    split
    · exact .inl ⟨⟨hcallee, hargs⟩, List.forall_mem_cons.2 ⟨⟨hok, herror⟩, hc.waiting⟩, hc.machine, fun _ => hstand,
        List.cons_ne_nil _ _, rfl, hne, hnested⟩
    · exact .inl ⟨herror _, hc.waiting, hc.machine, fun _ => hstand, hne, hnested⟩
  | onHeap op next =>
    obtain ⟨hop, hok, herror⟩ := hobeys
    obtain ⟨hopOk, hopError⟩ := hop m.heap hc.machine.heap
    unfold actNext
    dsimp only
    split
    · next v h hr =>
      exact .inl ⟨hok v (hopOk v h hr).1, hc.waiting, { hc.machine with heap := (hopOk v h hr).2 }, fun _ => hstand, hne,
        hnested⟩
    · next f h hr =>
      exact .inl ⟨herror f, hc.waiting, { hc.machine with heap := hopError f h hr }, fun _ => hstand, hne, hnested⟩
  | limits next => exact .inl ⟨hobeys s.limits, hc.waiting, hc.machine, fun _ => hstand, hne, hnested⟩
  | cancel next => exact .inl ⟨hobeys, hc.waiting, { hc.machine with }, fun _ => hstand, hne, hnested⟩

theorem proceeds_value (hc : Sound law k globals s ⟨.give (.ok v), w :: p, m⟩) :
    Proceeds law k globals s (giveNext s p m (.ok v) w) := by
  obtain ⟨hw, hwaiting⟩ := List.forall_mem_cons.1 hc.waiting
  have hstand := hc.stand (.inl (List.cons_ne_nil _ _))
  have hv : v.Obeys law := hc.doing
  have hnested : Nested false (w :: p) m.frames.length := hc.nested
  cases w with
  | host height depth next =>
    obtain ⟨-, hne, hnested⟩ := hnested
    exact .inl ⟨hw.1 v hv, hwaiting, hc.machine, fun _ => hstand, hne, hnested⟩
  | outside =>
    obtain ⟨hne, hnested⟩ := hnested
    have hwithin : Within Machine.Kept (do alloc; push s v; pop) :=
      .next calm_kept (.alloc calm_kept) (.next calm_kept (.push calm_kept v) (.pop calm_kept))
    have hkeeps : Keeps s law (Value.Obeys law) (do alloc; push s v; pop) :=
      (Keeps.alloc htrusts.governs).bind fun _ _ => (Keeps.push htrusts.governs hv).bind fun _ _ => Keeps.pop
    exact proceeds_give hwithin hkeeps hwaiting hc.machine hstand hne hnested.relax
  | instruction floor =>
    obtain ⟨hfloor, hnested⟩ := hnested
    have hwithin : Within Machine.Kept (do alloc; push s v; return .flow .goOn : Exec Pause) :=
      .next calm_kept (.alloc calm_kept) (.next calm_kept (.push calm_kept v) (.pure calm_kept _))
    have hkeeps : Keeps s law (· = .flow .goOn) (do alloc; push s v; return .flow .goOn : Exec Pause) :=
      (Keeps.alloc htrusts.governs).bind fun _ _ => (Keeps.push htrusts.governs hv).bind fun _ _ => Keeps.pure rfl
    unfold giveNext
    dsimp only
    rcases settled_cases hwithin hkeeps hc.machine with ⟨_, m', hr, rfl, hm', hframes⟩ | ⟨c, m', hr, hframes⟩ <;>
      rw [hr]
    · rw [← hframes] at hstand hfloor
      exact .inl ⟨trivial, hwaiting, hm', fun _ => hstand, hfloor, hnested⟩
    · rw [← hframes] at hfloor
      exact .inr ⟨_, floor, rfl, .ofLoop rfl (Nat.le_of_lt hfloor) hnested⟩

/-- A run goes on as it should until the first failure, and that goes out as it should. -/
theorem Sound.next (hc : c.Sound law k globals s) (hpropagates : c.Propagates (·.trace = none))
    (hnext : c.next s = some d) : d.Proceeds law k globals s := by
  obtain ⟨doing, p, m⟩ := c
  cases doing with
  | run floor =>
    cases hnext
    exact proceeds_run htrusts hc
  | call callee args =>
    cases hnext
    exact proceeds_call htrusts hc
  | body g args => exact proceeds_body htrusts hc hnext
  | act a =>
    cases hnext
    exact proceeds_act hc hpropagates.doing
  | give r =>
    cases r with
    | error h => exact hc.nested.elim
    | ok v =>
      cases p with
      | nil => cases hnext
      | cons w p =>
        cases hnext
        exact proceeds_value htrusts hc

/-! ### Runs -/

/-- A path to a failure comes to the first one. -/
theorem Path.first_failure {cs : List Configuration} (hhost : s.host.Propagates (·.trace = none)) (hpath : Path s c cs d)
    (hc : c.Sound law k globals s) (hpropagates : c.Propagates (·.trace = none)) (hd : d.fails = true) :
    ∃ cs' f n q M, Path s c cs' ⟨.give (.error (.failure f)), q, M⟩ ∧ (∀ c' ∈ cs', c'.fails = false) ∧
      Owes s M n f q M ∧ ∀ w ∈ q, w.Propagates (·.trace = none) := by
  induction hpath with
  | refl c =>
    rw [hc.fails_eq] at hd
    cases hd
  | @next c d e cs hnext htail ih =>
    have hgive : ∀ f, c.doing = .give (.error (.failure f)) → f.trace = none := by
      intro f hf
      have hnested := hc.nested
      rw [hf] at hnested
      exact hnested.elim
    have hpropagates' := hpropagates.next hhost (fun _ => rfl) hgive hnext
    rcases hc.next htrusts hpropagates hnext with hsound | ⟨f, n, hdoing, howes⟩
    · obtain ⟨cs', f, n, q, M, hpath', hquiet, howes⟩ := ih hsound hpropagates' hd
      exact ⟨c :: cs', f, n, q, M, .next hnext hpath', List.forall_mem_cons.2 ⟨hc.fails_eq, hquiet⟩, howes⟩
    · obtain ⟨doing, q, M⟩ := d
      cases hdoing
      exact ⟨[c], f, n, q, M, .next hnext (.refl _), List.forall_mem_singleton.2 hc.fails_eq, howes, hpropagates'.waiting⟩

end Steps

/-- A run of a certified program starts as it should. -/
theorem sound_start {m₁ : Machine} (hcertified : s.program.Certified k globals)
    (htrusts : (s.program.homeLaw k globals true).Trusts k globals s) (hm : (m.reset s).Obeys s (s.program.homeLaw k globals true))
    (hstart : (do checkToken; enter s s.program.main 0 : Exec Unit) (m.reset s) = .ok () m₁) :
    Sound (s.program.homeLaw k globals true) k globals s ⟨.run 0, [], m₁⟩ := by
  have hafter := (leaving_start htrusts.governs (Or.inl rfl) { hm with places := Nat.zero_le _, depth := Nat.zero_le _ }).after
  rw [hstart] at hafter
  have hframes : m₁.frames = [{ func := s.program.main, base := 0 }] := by
    obtain ⟨u, m₂, hcheck, henter⟩ := bind_eq_ok hstart
    obtain ⟨u, m₃, hreserve, hend⟩ := bind_eq_ok henter
    have hkept := (Within.reserveLocals calm_kept s.program.main 0).of_ok hreserve
    cases hend
    show _ :: m₃.frames = _
    rw [hkept.frames, eq_of_checkToken hcheck]
    rfl
  obtain ⟨heightAt, hmain⟩ := hcertified.main
  refine ⟨trivial, by simp, hafter.orderly, fun _ => ?_, ?_, rfl⟩
  · rw [hframes]
    exact ⟨⟨0, heightAt, .ground, hmain, hmain.start⟩, trivial⟩
  · rw [hframes]
    exact Nat.one_pos

/-- A failed run lists every call that was active at the first failure, the innermost first and each of them
once, with the place of its current instruction: the program is a compiled one, the functions of the host
hand the failures of their calls on, and main has been entered. -/
theorem trace_of_run {o : CompileOptions} {files : FileSet} {symbols : SymbolTable} {file : File} {h : Heap} {s : Setting}
    {m m₁ m' : Machine} {fuel : Nat} {f : Failure} (hsymbols : symbols.Initial) (hmaps : o.modules.ProvidesMaps)
    (hok : (compile o files symbols file h).result = .ok s.program) (hshort : s.program.IsShort)
    (hhost : s.host.Propagates (·.trace = none)) (hobeys : s.host.Obeys (s.program.homeLaw .any globals true))
    (hglobals : (compile o files symbols file h).symbols.slots SymbolTable.root = globals)
    (hm : (m.reset s).Obeys s (s.program.homeLaw .any globals true))
    (hstart : (do checkToken; enter s s.program.main 0 : Exec Unit) (m.reset s) = .ok () m₁)
    (hrun : m.run s fuel = .error (.failure f) m') :
    ∃ cs f₀ q M, Path s ⟨.run 0, [], m₁⟩ cs ⟨.give (.error (.failure f₀)), q, M⟩ ∧ (∀ c ∈ cs, c.fails = false) ∧
      f.cause = f₀.cause ∧
      f.trace = some (M.frames.map fun g => s.program.files.locate (g.func.positions.find g.current)) := by
  have hsound := sound_of_compile hsymbols hmaps o.modules.passes_any (Stmt.allPass_any file.stmts) hok
  rw [hglobals] at hsound
  have hcertified := hsound.certified hshort
  have htrusts := hcertified.trusts (isPlain_of_compile hsymbols hmaps hok) hobeys
  have hfinal : IsFinal (m.run s fuel) := by
    rw [hrun]
    trivial
  obtain ⟨r, m₂, ⟨cs, hpath⟩, hended⟩ := leads_run hstart hfinal
  have hr : r = .error (.failure f) := by
    rw [hrun] at hended
    cases r with
    | ok v => cases hended
    | error e =>
      cases e with
      | outOfFuel => cases hended
      | failure f' =>
        cases hended
        rfl
  subst hr
  obtain ⟨cs', f₀, n, q, M, hfirst, hquiet, howes, hq⟩ := hpath.first_failure htrusts hhost
    (sound_start hcertified htrusts hm hstart) ⟨trivial, by simp⟩ rfl
  obtain ⟨m₃, ds, hout⟩ := howes.leads hq
  -- both paths come to the end of the run
  have hsame := hpath.eq_of_ends (hfirst.trans hout) rfl rfl
  simp only [Configuration.mk.injEq, Doing.give.injEq, Except.error.injEq, Halt.failure.injEq] at hsame
  refine ⟨cs', f₀, q, M, hfirst, hquiet, by rw [hsame.1], ?_⟩
  rw [hsame.1]
  simp [places]

end Configuration

/-- `apply(func() { return func() { return 1() }() })`, with all calls at places of their own. -/
def File.raising : File where
  name := "main"
  stmts := [.expr 1 (.call 1 (.name "apply") [.func 7 [] false (.mk 14 [.ret 16 (some middle)])] false)]
where
  middle : Expr := .call 23 (.func 23 [] false (.mk 30 [.ret 32 (some (.call 39 (.int 39 1) [] false))])) [] false

/-- The failure of a run. -/
def Exec.failureOf? {α : Type} : EStateM.Result Halt Machine α → Option Failure
  | .error (.failure f) _ => some f
  | _ => none

theorem Exec.eq_of_failureOf? {α : Type} {r : EStateM.Result Halt Machine α} (h : failureOf? r = some f) :
    ∃ m, r = .error (.failure f) m := by
  cases r with
  | ok a m => cases h
  | error e m =>
    cases e with
    | failure g =>
      cases h
      exact ⟨m, rfl⟩
    | outOfFuel => cases h

/-- The program compiled, with one global that the host provides. -/
def Compilation.raising : Compilation :=
  compile {} (FileSet.addFile {} "main" none 50) (SymbolTable.withBuiltins.defineGlobal "apply").2 .raising {}

/-- A host whose functions call their first argument. -/
def Setting.raising : Setting where
  program := Compilation.raising.program
  host := fun _ => Host.apply

/-- The function of the host is a global. -/
def Machine.raising : Machine := { globals := #[.native (.host "apply")] }

theorem HostAction.propagates_apply (args : List Value) : (Host.apply args).Propagates (·.trace = none) := by
  cases args with
  | nil => rfl
  | cons f args => exact ⟨fun _ => rfl, fun _ => trivial⟩

theorem HostAction.obeys_apply (hargs : ∀ v ∈ args, v.Obeys law) : (Host.apply args).Obeys law := by
  cases args with
  | nil => trivial
  | cons f args =>
    obtain ⟨hf, hargs⟩ := List.forall_mem_cons.1 hargs
    exact ⟨hf, hargs, fun _ hv => hv, fun _ => trivial⟩

namespace Configuration

open Exec

/-- A machine with that global obeys the law of the program. -/
theorem obeys_raising : (Machine.reset .raising .raising).Obeys .raising (Setting.raising.program.homeLaw .any 1 true) where
  heap := Heap.obeys_homeLaw_empty
  globals v hv := by
    obtain rfl : v = .native (.host "apply") := by simpa [Machine.reset, Machine.raising] using hv
    rfl
  stack := by simp [Machine.reset]
  cells := by simp [Machine.reset]
  captures := by simp [Machine.reset]
  frames := by simp [Machine.reset]
  room := Nat.zero_le _

theorem trace_of_run_raising :
    ∃ f m', Machine.run .raising 30 .raising = .error (.failure f) m' ∧
      (f.trace.getD []).map (·.offset) = [38, 22, 0] ∧
      ∃ m₁ cs f₀ q M, Path .raising ⟨.run 0, [], m₁⟩ cs ⟨.give (.error (.failure f₀)), q, M⟩ ∧
        (∀ c ∈ cs, c.fails = false) ∧ f.cause = f₀.cause ∧ f.trace = some (M.frames.map fun g =>
          Setting.raising.program.files.locate (g.func.positions.find g.current)) := by
  have hok : Compilation.raising.result = .ok Setting.raising.program := by
    unfold Setting.raising
    dsimp only
    rw [Compilation.result_eq]
    decide +kernel
  have hfailure : failureOf? (Machine.run .raising 30 .raising) = some
      ⟨.notCallable "int", some [⟨"main", 38, 1, 39⟩, ⟨"main", 22, 1, 23⟩, ⟨"main", 0, 1, 1⟩]⟩ := by decide +kernel
  have hstart : isOk ((do checkToken; enter .raising Setting.raising.program.main 0 : Exec Unit)
      (Machine.reset .raising .raising)) = true := by decide +kernel
  obtain ⟨m', hrun⟩ := eq_of_failureOf? hfailure
  obtain ⟨u, m₁, hstart⟩ := exists_of_isOk hstart
  exact ⟨_, m', hrun, rfl, m₁, trace_of_run (.defineGlobal .withBuiltins "apply") (fun name v h => by cases h) hok
    (by decide +kernel) (fun _ args => HostAction.propagates_apply args)
    (fun _ _ _ hargs => HostAction.obeys_apply hargs) (by decide +kernel) obeys_raising hstart hrun⟩

end Configuration

end ScriptEngine
