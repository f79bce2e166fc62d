import ScriptEngine.Proofs.Machine.Steps
import ScriptEngine.Proofs.Machine.Within
/-!
# Cancellation

A request to stop takes effect soon. From the moment of the request on, every native function finds
the request before its body starts, and the count of instructions, which all loops share, cannot start
again without a look at the request. Main statement: whatever code a machine runs, and wherever it is
when the request is made, fewer instructions follow than the interval of the checks has, no body of a
native function is started, and the run ends by itself or is aborted
(`Configuration.cancellation_is_prompt`).
-/

namespace ScriptEngine

variable {m m' : Machine} {floor : Nat} {s : Setting}

/-- No instruction was counted between two machines, and a request to stop was not taken back. -/
structure Machine.InTime (m m' : Machine) : Prop where
  ticks : m'.ticks = m.ticks
  token : m.token.isCancelled = true → m'.token.isCancelled = true

theorem Machine.InTime.refl (m : Machine) : m.InTime m := ⟨rfl, id⟩

theorem Machine.InTime.of_eq (hticks : m'.ticks = m.ticks) (htoken : m'.token = m.token) :
    m.InTime m' := ⟨hticks, fun h => htoken ▸ h⟩

theorem lively_inTime : Lively Machine.InTime where
  kept h := .of_eq h.ticks h.token
  trans h h' := ⟨h'.ticks.trans h.ticks, fun hm => h'.token (h.token hm)⟩
  enter _ _ := .of_eq rfl rfl
  swap _ _ := .of_eq rfl rfl

theorem calm_inTime : Calm Machine.InTime := lively_inTime.toCalm

namespace Exec

theorem inTime_leave (v : Value) : Within Machine.InTime (leave s floor v) := by
  intro m
  rw [leave]
  cases m.frames with
  | nil => exact .fault (.refl m)
  | cons f rest =>
    dsimp only
    split
    · exact .ok (.of_eq rfl rfl)
    · have hleft : m.InTime { m with
        frames := rest, stack := m.stack.shrink (f.base - 1), cells := m.cells.shrink f.base } := .of_eq rfl rfl
      exact .trans calm_inTime hleft
        (Within.next calm_inTime (.push calm_inTime v) (.pure calm_inTime Flow.goOn) _)

theorem inTime_advance (floor : Nat) (i : Instruction) : Within Machine.InTime (advance s floor i) :=
  .advance lively_inTime fun _ v => inTime_leave v

/-! ### Steps after a request -/

theorem checkToken_cancelled (h : m.token.isCancelled = true) :
    checkToken m = .error (.failure { cause := .aborted }) m := by
  simp only [checkToken, CancelToken.check, if_pos h]

/-- An instruction that does not check still counts. -/
theorem tick_early (h : m.ticks + 1 < max s.config.checkInterval 1) :
    tick s m = .ok () { m with ticks := m.ticks + 1 } := by
  rw [tick, if_neg (Nat.not_le.2 h)]

theorem tick_due (h : max s.config.checkInterval 1 ≤ m.ticks + 1) (htoken : m.token.isCancelled = true) :
    tick s m = .error (.failure { cause := .aborted }) { m with ticks := 0 } := by
  rw [tick, if_pos h]
  exact checkToken_cancelled htoken

theorem ticks_tick_lt (s : Setting) (m : Machine) :
    (machineAfter (tick s m)).ticks < max s.config.checkInterval 1 := by
  rw [tick]
  split
  · rw [((Within.checkToken calm_inTime).after _).ticks]
    exact Nat.lt_of_lt_of_le Nat.one_pos (Nat.le_max_right _ _)
  · next hearly => exact Nat.not_le.1 hearly

/-- A call finds the request before the body of a native function. -/
theorem advance_cancelled (h : m.token.isCancelled = true) {i : Instruction} {f : Native} {args : List Value} :
    advance s floor i m ≠ .ok (.native f args) m' := by
  intro hr
  unfold advance at hr
  split at hr
  · obtain ⟨n, m₁, hn, hr⟩ := bind_eq_ok hr
    have hspread := (Within.ite (.spread calm_inTime i.first) (.pure calm_inTime i.first)).of_ok hn
    rcases approach_ok hr with ⟨g, -, -, hpause⟩ | ⟨g, taken, -, htake, -⟩
    · cases hpause
    · rw [takeArguments, bind_error (checkToken_cancelled (hspread.token h))] at htake
      cases htake
  · obtain ⟨flow, m₁, hflow, hr⟩ := bind_eq_ok hr
    cases hr

end Exec

namespace Configuration

open Exec

variable {c d : Configuration} {p : List Waiting} {k : Nat}

/-- Whether the next instruction is executed, and not refused for a request to stop. -/
def executes (s : Setting) (c : Configuration) : Bool :=
  match c.doing with
  | .run _ => isOk (tick s c.machine)
  | _ => false

/-- Whether the body of a native function starts. -/
def startsBody (c : Configuration) : Bool :=
  match c.doing with
  | .body _ _ => true
  | _ => false

/-- Whether a failure is handed on whose cause is a request to stop. -/
def aborts (c : Configuration) : Bool :=
  match c.doing with
  | .give (.error (.failure f)) | .act (.done (.error f)) => f.isAborted
  | _ => false

/-- A configuration comes to an end: at most `k` instructions are executed on the way, no body of a
native function is started, and once a failure is due to a request to stop, that is the end's failure. -/
structure EndsWithin (s : Setting) (k : Nat) (c : Configuration) (cs : List Configuration) (e : Configuration) :
    Prop where
  path : Path s c cs e
  ended : e.next s = none
  few : cs.countP (executes s) ≤ k
  bodies : ∀ d ∈ cs, d.startsBody = false
  aborted : (∃ d ∈ cs, d.aborts = true) → e.aborts = true

/-- A configuration comes to an end within `k` instructions. -/
def Ends (s : Setting) (k : Nat) (c : Configuration) : Prop := ∃ cs e, EndsWithin s k c cs e

theorem EndsWithin.aborts {cs : List Configuration} {e : Configuration} (h : EndsWithin s k c cs e)
    (hc : c.aborts = true) : e.aborts = true := by
  cases hpath : h.path with
  | refl => exact hc
  | next hnext hrest => exact h.aborted ⟨c, List.mem_cons_self, hc⟩

theorem Ends.mono {l : Nat} (h : Ends s k c) (hle : k ≤ l) : Ends s l c := by
  obtain ⟨cs, e, h⟩ := h
  exact ⟨cs, e, { h with few := Nat.le_trans h.few hle }⟩

/-- What comes to an end after the next configuration does so from this one on; an instruction counts. -/
theorem Ends.cons (h : Ends s k d) (hnext : c.next s = some d) (hbody : c.startsBody = false)
    (haborts : c.aborts = true → d.aborts = true) : Ends s (k + (c.executes s).toNat) c := by
  obtain ⟨cs, e, h⟩ := h
  refine ⟨c :: cs, e, .next hnext h.path, h.ended, ?_, List.forall_mem_cons.2 ⟨hbody, h.bodies⟩, ?_⟩
  · rw [List.countP_cons]
    have hfew := h.few
    cases c.executes s <;> simp <;> omega
  · rintro ⟨b, hb, hab⟩
    rcases List.mem_cons.1 hb with rfl | hb
    · exact h.aborts (haborts hab)
    · exact h.aborted ⟨b, hb, hab⟩

/-- No instruction is executed when something else is done. -/
theorem Ends.pass (h : Ends s k d) (hnext : c.next s = some d) (hbody : c.startsBody = false)
    (hexecutes : c.executes s = false) (haborts : c.aborts = true → d.aborts = true) : Ends s k c := by
  have hcons := h.cons hnext hbody haborts
  rw [hexecutes] at hcons
  exact hcons

/-- A failure is handed on to the end, whatever waits. -/
theorem ends_error (hp : ∀ w ∈ p, w.Propagates fun _ => True) (h : Halt) (m : Machine) :
    Ends s 0 ⟨.give (.error h), p, m⟩ := by
  induction p generalizing h m with
  | nil => exact ⟨[], _, .refl _, rfl, Nat.le_refl 0, by simp, by simp⟩
  | cons w p ih =>
    obtain ⟨hw, hrest⟩ := List.forall_mem_cons.1 hp
    cases w with
    | instruction floor =>
      refine (ih hrest (leaving s floor m h) m).pass rfl rfl rfl ?_
      cases h with
      | failure f | outOfFuel => exact id
    | outside => exact (ih hrest h m).pass rfl rfl rfl id
    | host height depth next =>
      cases h with
      | outOfFuel => exact (ih hrest .outOfFuel m).pass rfl rfl rfl id
      | failure f =>
        have hact : Ends s 0 ⟨.act (.done (.error f)), p, unwind height depth m⟩ :=
          (ih hrest (.failure f) _).pass rfl rfl rfl id
        rw [← hw.1 f] at hact
        refine hact.pass rfl rfl rfl fun h => ?_
        rw [hw.1 f]
        exact h

/-! ### From a request to the end -/

/-- There is a request to stop, and at most `k` instructions can be counted before the next check. -/
structure Late (s : Setting) (k : Nat) (m : Machine) : Prop where
  requested : m.token.isCancelled = true
  due : max s.config.checkInterval 1 ≤ m.ticks + 1 + k

theorem Late.inTime (h : Late s k m) (hm : m.InTime m') : Late s k m' :=
  ⟨hm.token h.requested, by rw [hm.ticks]; exact h.due⟩

/-- Whatever is done late comes to an end within `k` instructions. -/
def Closes (s : Setting) (k : Nat) : Prop :=
  ∀ c : Configuration, c.Propagates (fun _ => True) → Late s k c.machine → c.startsBody = false → Ends s k c

theorem machine_give (p : List Waiting) (r : EStateM.Result Halt Machine Value) :
    (give p r).machine = machineAfter r := by
  cases r <;> rfl

theorem machine_inLoop (p : List Waiting) (r : EStateM.Result Halt Machine Pause) :
    (inLoop s floor p r).machine = machineAfter r := by
  cases r with
  | error h m => rfl
  | ok pause m =>
    cases pause with
    | flow flow => cases flow <;> rfl
    | native f args => rfl

theorem startsBody_inLoop {r : EStateM.Result Halt Machine Pause} (h : ∀ f args m', r ≠ .ok (.native f args) m') :
    (inLoop s floor p r).startsBody = false := by
  cases r with
  | error h m => rfl
  | ok pause m =>
    cases pause with
    | flow flow => cases flow <;> rfl
    | native f args => exact absurd rfl (h f args m)

/-- The next instruction is refused, or counts and leaves fewer to come. -/
theorem ends_run (hcloses : ∀ l, k = l + 1 → Closes s l) (hp : ∀ w ∈ p, w.Propagates fun _ => True)
    (hm : Late s k m) : Ends s k ⟨.run floor, p, m⟩ := by
  have hnext : (⟨.run floor, p, m⟩ : Configuration).next s = some (inLoop s floor p (begin s floor m)) := rfl
  rcases Nat.lt_or_ge (m.ticks + 1) (max s.config.checkInterval 1) with hearly | hdue
  · -- the instruction counts
    have htick := tick_early hearly
    have hexecutes : executes s ⟨.run floor, p, m⟩ = true := by simp only [executes, htick, isOk]
    have hpositive : 0 < k := by have := hm.due; omega
    obtain ⟨l, rfl⟩ := Nat.exists_eq_succ_of_ne_zero (Nat.pos_iff_ne_zero.1 hpositive)
    have hrest : Ends s l (inLoop s floor p (begin s floor m)) := by
      have hbegin : begin s floor m = (fetch >>= advance s floor) { m with ticks := m.ticks + 1 } := bind_ok htick
      have hlate : Late s l { m with ticks := m.ticks + 1 } := ⟨hm.requested, by have := hm.due; dsimp only; omega⟩
      refine hcloses l rfl _ (propagates_inLoop hp _) ?_ ?_
      · rw [machine_inLoop, hbegin]
        exact hlate.inTime ((Within.bind calm_inTime (Within.fetch lively_inTime) fun i => inTime_advance floor i).after _)
      · refine startsBody_inLoop fun f args m' hr => ?_
        obtain ⟨i, m₁, hfetch, hadvance⟩ := bind_eq_ok (hbegin.symm.trans hr)
        exact advance_cancelled (((Within.fetch lively_inTime).of_ok hfetch).token hm.requested) hadvance
    have hcons := hrest.cons hnext rfl (fun h => by cases h)
    rw [hexecutes] at hcons
    exact hcons
  · have htick := tick_due hdue hm.requested
    have hbegin : begin s floor m = .error (.failure { cause := .aborted }) { m with ticks := 0 } := bind_error htick
    rw [hbegin] at hnext
    refine ((ends_error hp _ _).pass hnext rfl ?_ fun h => by cases h).mono (Nat.zero_le k)
    simp only [executes, htick, isOk]

/-- A function of the host that acts late makes no more calls, so it comes to its result. -/
theorem ends_act (hgive : ∀ m, Late s k m → ∀ r, Ends s k ⟨.give r, p, m⟩) {a : HostAction}
    (ha : a.Propagates fun _ => True) (hm : Late s k m) : Ends s k ⟨.act a, p, m⟩ := by
  induction a generalizing m with
  | done r =>
    cases r with
    | ok v => exact (hgive m hm (.ok v)).pass rfl rfl rfl fun h => by cases h
    | error f => exact (hgive m hm (.error (.failure f))).pass rfl rfl rfl id
  | call callee args next ih =>
    have hcheck : m.token.check = .error .aborted := if_pos hm.requested
    have hnext : (⟨.act (.call callee args next), p, m⟩ : Configuration).next s =
        some ⟨.act (.done (.error { cause := .aborted })), p, m⟩ := by
      simp only [Configuration.next, actNext, hcheck, ha.1]
    have hdone : Ends s k ⟨.act (.done (.error { cause := .aborted })), p, m⟩ :=
      (hgive m hm (.error (.failure { cause := .aborted }))).pass rfl rfl rfl id
    exact hdone.pass hnext rfl rfl fun h => by cases h
  | onHeap op next ih =>
    have hrest : ∀ r h, Ends s k ⟨.act (next r), p, { m with heap := h }⟩ := fun r h =>
      ih r (ha r) (hm.inTime (.of_eq rfl rfl))
    cases hop : op m.heap with
    | ok x h | error x h =>
      exact (hrest _ h).pass (by simp only [Configuration.next, actNext, hop]; rfl) rfl rfl fun h => by cases h
  | limits next ih => exact (ih s.limits (ha _) hm).pass rfl rfl rfl fun h => by cases h
  | cancel next ih =>
    have hlate : Late s k { m with token := m.token.cancel } := ⟨rfl, hm.due⟩
    exact (ih ha hlate).pass rfl rfl rfl fun h => by cases h

/-- A result is handed on until an instruction is next or nothing waits. The induction is on what
waits: a function of the host that gets the result acts with less that waits. -/
theorem ends_give (hrun : ∀ floor p m, (∀ w ∈ p, w.Propagates fun _ => True) → Late s k m →
      Ends s k ⟨.run floor, p, m⟩) (hp : ∀ w ∈ p, w.Propagates fun _ => True) (hm : Late s k m)
    (r : Except Halt Value) : Ends s k ⟨.give r, p, m⟩ := by
  induction p generalizing m r with
  | nil => exact ⟨[], _, .refl _, rfl, Nat.zero_le k, by simp, by simp⟩
  | cons w p ih =>
    obtain ⟨hw, hrest⟩ := List.forall_mem_cons.1 hp
    cases r with
    | error h => exact (ends_error hp h m).mono (Nat.zero_le k)
    | ok v =>
      cases w with
      | instruction floor =>
        have hassoc : (do alloc; push s v; return .flow .goOn : Exec Pause) =
            (do alloc; push s v) >>= fun _ => pure (.flow .goOn) := (bind_assoc _ _ _).symm
        have htime := (Within.next calm_inTime (.alloc calm_inTime) (.push (s := s) calm_inTime v)).after m
        have hnext : (⟨.give (.ok v), .instruction floor :: p, m⟩ : Configuration).next s =
          some (inLoop s floor p ((do alloc; push s v; return .flow .goOn : Exec Pause) m)) := rfl
        rw [hassoc] at hnext
        cases hr : (do alloc; push s v) m with
        | ok u m' =>
          rw [hr] at htime
          rw [bind_ok hr] at hnext
          exact (hrun floor p m' hrest (hm.inTime htime)).pass hnext rfl rfl fun h => by cases h
        | error h m' =>
          rw [bind_error hr] at hnext
          exact ((ends_error hrest _ m').mono (Nat.zero_le k)).pass hnext rfl rfl fun h => by cases h
      | outside =>
        have htime := (Within.next calm_inTime (.alloc calm_inTime)
          (.next calm_inTime (.push (s := s) calm_inTime v) (.pop calm_inTime))).after m
        have hnext : (⟨.give (.ok v), .outside :: p, m⟩ : Configuration).next s =
          some (give p ((do alloc; push s v; pop) m)) := rfl
        generalize (do alloc; push s v; pop) m = r at htime hnext
        cases r with
        | ok v' m' => exact (ih hrest (hm.inTime htime) (.ok v')).pass hnext rfl rfl fun h => by cases h
        | error h m' => exact ((ends_error hrest h m').mono (Nat.zero_le k)).pass hnext rfl rfl fun h => by cases h
      | host height depth next =>
        have hact := ends_act (fun m hm r => ih hrest hm r) (hw.2 v) hm
        exact hact.pass rfl rfl rfl fun h => by cases h

/-- Whatever a machine is about to do after a request to stop, unless it starts the body of a native
function: with fewer instructions to come it is so, too. -/
theorem closes_of_fewer (hcloses : ∀ l, k = l + 1 → Closes s l) : Closes s k := by
  intro c hc hlate hbody
  obtain ⟨doing, p, m⟩ := c
  obtain ⟨hdoing, hp⟩ := hc
  have hrun : ∀ floor p m, (∀ w ∈ p, w.Propagates fun _ => True) → Late s k m → Ends s k ⟨.run floor, p, m⟩ :=
    fun floor p m hp hm => ends_run hcloses hp hm
  cases doing with
  | run floor => exact hrun floor p m hp hlate
  | call callee args =>
    have hoffer : offer s callee args m = .error (.failure { cause := .aborted }) m :=
      bind_error (checkToken_cancelled hlate.requested)
    have hnext : (⟨.call callee args, p, m⟩ : Configuration).next s = some _ := rfl
    rw [callNext, hoffer] at hnext
    exact ((ends_error hp _ m).mono (Nat.zero_le k)).pass hnext rfl rfl fun h => by cases h
  | body f args => cases hbody
  | act a => exact ends_act (fun m hm r => ends_give hrun hp hm r) hdoing hlate
  | give r => exact ends_give hrun hp hlate r

theorem closes (s : Setting) (k : Nat) : Closes s k := by
  induction k with
  | zero => exact closes_of_fewer fun l h => by cases h
  | succ k ih =>
    refine closes_of_fewer fun l h => ?_
    cases h
    exact ih

/-! ### Wherever a request is made -/

theorem inTime_callNext (callee : Value) (args : List Value) : m.InTime (callNext s p m callee args).machine := by
  unfold callNext
  rcases (Within.offer (s := s) calm_inTime callee args).cases m with ⟨u, m₁, hr, h⟩ | ⟨c, m₁, hr, h⟩ <;> simp only [hr]
  · refine calm_inTime.trans h ?_
    unfold afterOffer
    split
    · next f =>
      rcases (Within.callFunction (s := s) lively_inTime f args.length false).cases m₁ with
        ⟨u, m₂, hr, h⟩ | ⟨c, m₂, hr, h⟩ <;> rw [hr] <;> exact h
    · rcases (Within.takeArguments calm_inTime args.length).cases m₁ with
        ⟨u, m₂, hr, h⟩ | ⟨c, m₂, hr, h⟩ <;> rw [hr] <;> exact h
    · exact .refl m₁
  · exact h

theorem inTime_actNext (a : HostAction) : m.InTime (actNext s p m a).machine := by
  cases a with
  | done r => cases r <;> exact .refl m
  | call callee args next =>
    unfold actNext
    dsimp only
    split <;> exact .refl m
  | onHeap op next =>
    unfold actNext
    dsimp only
    split <;> exact .of_eq rfl rfl
  | limits next => exact .refl m
  | cancel next => exact ⟨rfl, fun _ => rfl⟩

theorem inTime_giveNext (r : Except Halt Value) (w : Waiting) : m.InTime (giveNext s p m r w).machine := by
  cases w with
  | instruction floor =>
    cases r with
    | error h => exact .refl m
    | ok v =>
      show m.InTime (inLoop s floor p _).machine
      rw [machine_inLoop]
      exact (Within.next calm_inTime (.alloc calm_inTime)
        (.next calm_inTime (.push calm_inTime v) (.pure calm_inTime _))).after m
  | outside =>
    cases r with
    | error h => exact .refl m
    | ok v =>
      show m.InTime (give p _).machine
      rw [machine_give]
      exact (Within.next calm_inTime (.alloc calm_inTime)
        (.next calm_inTime (.push calm_inTime v) (.pop calm_inTime))).after m
  | host height depth next =>
    cases r with
    | ok v => exact .refl m
    | error h => cases h <;> exact .of_eq rfl rfl

/-- The count of instructions stays below the interval of the checks. -/
theorem ticks_next_lt (h : c.next s = some d) (hc : c.machine.ticks < max s.config.checkInterval 1) :
    d.machine.ticks < max s.config.checkInterval 1 := by
  have hsame : c.machine.InTime d.machine → d.machine.ticks < max s.config.checkInterval 1 :=
    fun htime => htime.ticks ▸ hc
  obtain ⟨doing, p, m⟩ := c
  cases doing with
  | run floor =>
    cases h
    rw [machine_inLoop]
    have hticks := ticks_tick_lt s m
    cases htick : tick s m with
    | error h m₁ =>
      rw [htick] at hticks
      rw [begin, bind_error htick]
      exact hticks
    | ok u m₁ =>
      rw [htick] at hticks
      rw [begin, bind_ok htick]
      have htime := (Within.bind calm_inTime (Within.fetch lively_inTime) fun i => inTime_advance (s := s) floor i).after m₁
      exact htime.ticks ▸ hticks
  | call callee args =>
    cases h
    exact hsame (inTime_callNext callee args)
  | body f args =>
    cases f with
    | builtin b =>
      cases h
      refine hsame ?_
      rw [machine_give]
      exact (Within.onHeap calm_inTime _).after m
    | host name =>
      cases h
      exact hc
  | act a =>
    cases h
    exact hsame (inTime_actNext a)
  | give r =>
    cases p with
    | nil => cases h
    | cons w p =>
      cases h
      exact hsame (inTime_giveNext r w)

theorem Leads.ticks_lt (h : Leads s c d) (hc : c.machine.ticks < max s.config.checkInterval 1) :
    d.machine.ticks < max s.config.checkInterval 1 := by
  obtain ⟨cs, h⟩ := h
  induction h with
  | refl => exact hc
  | next hnext _ ih => exact ih (ticks_next_lt hnext hc)

/-- A machine in which nothing is going on: a new one, or what a run or a call left. The request to stop
is the host's. -/
inductive Idle (s : Setting) : Machine → Prop where
  | new (globals : Array Value) (token : CancelToken) (heap : Heap) : Idle s (.new s globals token heap)
  | ran {m : Machine} {fuel : Nat} : Idle s m → IsFinal (m.run s fuel) → Idle s (machineAfter (m.run s fuel))
  | called {m : Machine} {fuel : Nat} {callee : Value} {args : List Value} : Idle s m →
      IsFinal (m.call s fuel callee args) → Idle s (machineAfter (m.call s fuel callee args))
  | signal {m : Machine} (token : CancelToken) : Idle s m → Idle s { m with token }

/-- A configuration that a run or a call comes to; the host may make a request to stop between two
instructions, or a deadline may pass. -/
inductive Occurs (s : Setting) : Configuration → Prop where
  | run {m m₁ : Machine} : Idle s m →
      (do checkToken; enter s s.program.main 0 : Exec Unit) (m.reset s) = .ok () m₁ → Occurs s ⟨.run 0, [], m₁⟩
  | call {m : Machine} (callee : Value) (args : List Value) : Idle s m → Occurs s ⟨.call callee args, [], m⟩
  | next {c d : Configuration} : Occurs s c → c.next s = some d → Occurs s d
  | signal {floor : Nat} {p : List Waiting} {m : Machine} (token : CancelToken) : Occurs s ⟨.run floor, p, m⟩ →
      Occurs s ⟨.run floor, p, { m with token }⟩

theorem interval_pos (s : Setting) : 0 < max s.config.checkInterval 1 :=
  Nat.lt_of_lt_of_le Nat.one_pos (Nat.le_max_right _ _)

/-- Before the first instruction none has been counted. -/
theorem ticks_start (s : Setting) (m : Machine) :
    (machineAfter ((do checkToken; enter s s.program.main 0 : Exec Unit) (m.reset s))).ticks = 0 :=
  ((Within.next calm_inTime (.checkToken calm_inTime) (.enter lively_inTime _ _)).after (m.reset s)).ticks

theorem Idle.ticks_lt (h : Idle s m) : m.ticks < max s.config.checkInterval 1 := by
  induction h with
  | new globals token heap => exact interval_pos s
  | @ran m fuel hm hfinal ih =>
    have hzero := ticks_start s m
    cases hstart : (do checkToken; enter s s.program.main 0) (m.reset s) with
    | error h m₁ =>
      rw [hstart] at hzero
      have hexec : start s fuel (m.reset s) = .error h m₁ := by rw [start_eq, bind_error hstart]
      have hticks : (machineAfter (m.run s fuel)).ticks = m₁.ticks := by
        simp only [Machine.run, hexec]
        cases h <;> rfl
      rw [hticks]
      exact Nat.lt_of_le_of_lt (Nat.le_of_eq hzero) (interval_pos s)
    | ok u m₁ =>
      rw [hstart] at hzero
      obtain ⟨r, m₂, hleads, hrun⟩ := leads_run hstart hfinal
      have hticks := hleads.ticks_lt (Nat.lt_of_le_of_lt (Nat.le_of_eq hzero) (interval_pos s))
      rw [hrun]
      cases r with
      | ok v => exact hticks
      | error h => cases h <;> exact hticks
  | @called m fuel callee args hm hfinal ih =>
    obtain ⟨r, m₂, hleads, hcall⟩ := leads_call hfinal
    have hticks := hleads.ticks_lt ih
    rw [hcall]
    cases r with
    | ok v => exact hticks
    | error h => cases h <;> exact hticks
  | signal token hm ih => exact ih

/-- Wherever a run or a call has come to, its host hands failures on and few instructions are counted. -/
theorem Occurs.propagates_and_ticks_lt (hhost : s.host.Propagates fun _ => True) (h : Occurs s c) :
    c.Propagates (fun _ => True) ∧ c.machine.ticks < max s.config.checkInterval 1 := by
  induction h with
  | @run m m₁ hm hstart =>
    have hzero := ticks_start s m
    rw [hstart] at hzero
    exact ⟨⟨trivial, by simp⟩, Nat.lt_of_le_of_lt (Nat.le_of_eq hzero) (interval_pos s)⟩
  | call callee args hm => exact ⟨⟨trivial, by simp⟩, hm.ticks_lt⟩
  | next hc hnext ih =>
    exact ⟨ih.1.next hhost (fun _ => trivial) (fun _ _ => trivial) hnext, ticks_next_lt hnext ih.2⟩
  | signal token hc ih => exact ⟨⟨trivial, ih.1.waiting⟩, ih.2⟩

/-- Cancellation is prompt. Runs that come to an end are paths of configurations. Once there is a request
to stop in a configuration that a run or a call comes to, fewer instructions follow than the interval of the
checks has, no body of a native function starts, and the end comes by itself or is an abort. A run or a call
that starts with such a request executes nothing and is aborted. -/
theorem cancellation_is_prompt (hhost : s.host.Propagates fun _ => True) :
    (∀ (m m₁ : Machine) (fuel : Nat),
      (do checkToken; enter s s.program.main 0 : Exec Unit) (m.reset s) = .ok () m₁ → IsFinal (m.run s fuel) →
      ∃ r m₂, Leads s ⟨.run 0, [], m₁⟩ ⟨.give r, [], m₂⟩ ∧ m.run s fuel = ended m₂ r) ∧
    (∀ c, Occurs s c → c.machine.token.isCancelled = true → c.startsBody = false →
      ∃ cs e, EndsWithin s (max 1 s.config.checkInterval - 1) c cs e) ∧
    (∀ (m : Machine) (fuel : Nat), m.token.isCancelled = true →
      m.run s fuel = .error (.failure { cause := .aborted }) { m.reset s with status := .aborted }) ∧
    ∀ (m : Machine) (fuel : Nat) (callee : Value) (args : List Value), m.token.isCancelled = true →
      m.call s (fuel + 1) callee args =
        .error (.failure { cause := .aborted }) (unwind m.stack.size m.frames.length m) := by
  refine ⟨fun m m₁ fuel hstart hfinal => leads_run hstart hfinal, ?_, ?_, ?_⟩
  · intro c hc hcancelled hbody
    obtain ⟨hpropagates, hticks⟩ := hc.propagates_and_ticks_lt hhost
    refine closes s _ c hpropagates ⟨hcancelled, ?_⟩ hbody
    rw [Nat.max_comm 1]
    omega
  · intro m fuel hcancelled
    have hexec : start s fuel (m.reset s) = .error (.failure { cause := .aborted }) (m.reset s) :=
      bind_error (checkToken_cancelled hcancelled)
    simp only [Machine.run, hexec]
    rfl
  · intro m fuel callee args hcancelled
    have hcall : callValue s (runLoop s fuel) (invoke s fuel) callee args m =
        .error (.failure { cause := .aborted }) m := bind_error (checkToken_cancelled hcancelled)
    simp only [Machine.call, invoke, guarded, unwinding, hcall]

/-- A program that never ends, and a check at every fourth instruction. -/
def endless : Setting where
  program := { main := { code := (Instruction.encode .jump [0]).toArray } }
  config := { checkInterval := 4 }
  host := fun _ _ => Host.stop

theorem cancellation_is_prompt_endless :
    endless.host.Propagates (fun _ => True) ∧ ∃ m₁ cs e,
      (do checkToken; enter endless endless.program.main 0 : Exec Unit)
        ((Machine.new endless #[] {} {}).reset endless) = .ok () m₁ ∧
      EndsWithin endless 3 ⟨.run 0, [], m₁.abort⟩ cs e := by
  have hhost : endless.host.Propagates (fun _ => True) := fun _ _ => trivial
  have hstart : (do checkToken; enter endless endless.program.main 0 : Exec Unit)
      ((Machine.new endless #[] {} {}).reset endless) = .ok () _ := rfl
  have hoccurs := Occurs.signal { requested := true } (.run (.new #[] {} {}) hstart)
  obtain ⟨cs, e, h⟩ := (cancellation_is_prompt hhost).2.1 _ hoccurs rfl rfl
  exact ⟨hhost, _, cs, e, hstart, h⟩

end Configuration

end ScriptEngine
