import ScriptEngine.Proofs.Machine.Calls
import ScriptEngine.Proofs.Machine.Stations
/-!
# Configurations

A run unfolded into single steps. A configuration says what a machine is about to do and what waits
until that is done: the instruction that called a native function, and the function of the host that
called a value. `Configuration.next` is the next one, and `Configuration.Path` lists those that are
passed. Main statements: every run and every call that comes to an end is the path from its first
configuration (`leads_run`, `leads_call`). So more fuel changes nothing (`run_eq_run`).
-/

namespace ScriptEngine

variable {inv : Invoke} {m : Machine} {floor fuel : Nat} {s : Setting} {go : Nat → Exec (Option Value)}

/-- What a machine is about to do. -/
inductive Doing where
  /-- The next instruction, until the calls above a floor are done. -/
  | run (floor : Nat)
  /-- Calls a value from outside of the program. -/
  | call (callee : Value) (args : List Value)
  /-- Starts the body of a native function. -/
  | body (f : Native) (args : List Value)
  /-- Does what a function of the host asks for. -/
  | act (a : HostAction)
  /-- Hands a result to what waits for it. -/
  | give (r : Except Halt Value)

/-- What waits for a result. -/
inductive Waiting where
  /-- An instruction that called a native function; it is run above a floor. -/
  | instruction (floor : Nat)
  /-- A call of a native function from outside of the program. -/
  | outside
  /-- A function of the host; after a failure stack and frames go back to a height and a depth. -/
  | host (height depth : Nat) (next : Except Failure Value → HostAction)

/-- A machine, what it is about to do and what waits, the innermost first. -/
structure Configuration where
  doing : Doing
  waiting : List Waiting
  machine : Machine

namespace Exec

/-! ### Instructions up to the body of a native function -/

/-- How far an instruction gets before the body of a native function. -/
inductive Pause where
  | flow (flow : Flow)
  | native (f : Native) (args : List Value)

/-- Calls a value with the topmost `n` values, up to the body of a native function. -/
def reach (s : Setting) (n : Nat) : Value → Exec Pause
  | .function f => do
    callFunction s f n true
    return .flow .goOn
  | .native f => do
    let args ← takeArguments n
    return .native f args.toList
  | other => fault (.notCallable other.typeName)

/-- Calls the value below the topmost `n` ones, up to the body of a native function. -/
def approach (s : Setting) (n : Nat) : Exec Pause := fun m =>
  if m.stack.size < n + 1 then fault underflow m
  else reach s n (m.stack.getD (m.stack.size - (n + 1)) .undefined) m

/-- Executes an instruction up to the body of a native function. -/
def advance (s : Setting) (floor : Nat) (i : Instruction) : Exec Pause :=
  if i.op = .call then (if i.second != 0 then spread s i.first else pure i.first) >>= approach s
  else do return .flow (← execute s (fun _ _ => throw .outOfFuel) floor i)

/-- A step up to the body of a native function. -/
def begin (s : Setting) (floor : Nat) : Exec Pause := do
  tick s
  let i ← fetch
  advance s floor i

/-- The body of a native function. -/
def body (s : Setting) (inv : Invoke) (args : List Value) : Native → Exec Value
  | .builtin b => onHeap (b.call s.limits args)
  | .host name => perform s inv (s.host name args)

/-- The rest of an instruction. -/
def finish (s : Setting) (inv : Invoke) : Pause → Exec Flow
  | .flow flow => pure flow
  | .native f args => do
    let v ← body s inv args f
    alloc
    push s v
    return .goOn

section

variable (s : Setting) (inv : Invoke)

theorem callNative_eq (f : Native) (n : Nat) :
    callNative s inv f n = (do
      let args ← takeArguments n
      let v ← body s inv args.toList f
      alloc
      push s v) := by
  cases f <;> simp [callNative, takeArguments, body]

theorem dispatch_eq (n : Nat) (callee : Value) :
    (do dispatch s inv n callee; return .goOn) = reach s n callee >>= finish s inv := by
  cases callee with
  | function f => simp [dispatch, reach, finish]
  | native f => simp [dispatch, reach, finish, callNative_eq]
  | _ => rfl

theorem callBelow_eq (n : Nat) : (do callBelow s inv n; return .goOn) = approach s n >>= finish s inv := by
  funext m
  by_cases hfew : m.stack.size < n + 1
  · rw [bind_error (show callBelow s inv n m = _ from if_pos hfew),
      bind_error (show approach s n m = _ from if_pos hfew)]
  · have hdispatch := congrFun (dispatch_eq s inv n (m.stack.getD (m.stack.size - (n + 1)) .undefined)) m
    -- both sides have looked at the callee
    show EStateM.bind (callBelow s inv n) _ m = EStateM.bind (approach s n) _ m
    rw [EStateM.bind, EStateM.bind, callBelow, approach, if_neg hfew, if_neg hfew]
    exact hdispatch

/-- Only calls start native functions. -/
theorem execute_eq (floor : Nat) (i : Instruction) : execute s inv floor i = advance s floor i >>= finish s inv := by
  obtain ⟨offset, op, operands⟩ := i
  cases op with
  | call =>
    show (do call s inv _ _; return Flow.goOn) = _
    rw [call_eq]
    simp only [advance, if_pos, bind_assoc, callBelow_eq]
  | _ => simp [advance, finish, execute]

theorem step_eq (floor : Nat) : step s inv floor = begin s floor >>= finish s inv := by
  simp only [step, begin, bind_assoc, execute_eq s inv]

end

/-! ### Calls from outside -/

/-- Calls a value that lies on the stack with its arguments. -/
def callOffered (s : Setting) (go : Exec (Option Value)) (inv : Invoke) (n : Nat) : Value → Exec Value
  | .function f => do
    callFunction s f n false
    return (← go).getD .undefined
  | .native f => do
    callNative s inv f n
    pop
  | other => fault (.notCallable other.typeName)

theorem eq_of_checkToken {m' : Machine} (h : checkToken m = .ok () m') : m' = m := by
  unfold checkToken at h
  split at h
  · cases h
    rfl
  · cases h

theorem callValue_eq (s : Setting) (go : Nat → Exec (Option Value)) (inv : Invoke) (callee : Value)
    (args : List Value) (m : Machine) :
    callValue s go inv callee args m =
      (do offer s callee args; callOffered s (go m.frames.length) inv args.length callee) m := by
  simp only [offer, bind_assoc]
  unfold callValue
  cases hcheck : checkToken m with
  | error h m1 => rw [bind_error hcheck, bind_error hcheck]
  | ok u m1 =>
    rw [bind_ok hcheck, bind_ok hcheck, eq_of_checkToken hcheck]
    cases callee <;> rfl

/-- A failure that leaves a loop gets the places of the calls above its floor. -/
def leaving (s : Setting) (floor : Nat) (m : Machine) : Halt → Halt
  | .failure f => .failure (f.addTrace (places s floor m))
  | .outOfFuel => .outOfFuel

end Exec

namespace Configuration

open Exec

/-- Hands the result of an execution to what waits for it. -/
def give (p : List Waiting) : EStateM.Result Halt Machine Value → Configuration
  | .ok v m => ⟨.give (.ok v), p, m⟩
  | .error h m => ⟨.give (.error h), p, m⟩

/-- Goes on after an execution in a loop. -/
def inLoop (s : Setting) (floor : Nat) (p : List Waiting) : EStateM.Result Halt Machine Pause → Configuration
  | .ok (.flow .goOn) m => ⟨.run floor, p, m⟩
  | .ok (.flow (.returned v)) m => ⟨.give (.ok v), p, m⟩
  | .ok (.flow .suspended) m => ⟨.give (.ok .undefined), p, m⟩
  | .ok (.native f args) m => ⟨.body f args, .instruction floor :: p, m⟩
  | .error h m => ⟨.give (.error (leaving s floor m h)), p, m⟩

/-- Goes on when a value lies on the stack with its arguments. -/
def afterOffer (s : Setting) (floor n : Nat) (p : List Waiting) (m : Machine) : Value → Configuration
  | .function f =>
    match callFunction s f n false m with
    | .ok () m => ⟨.run floor, p, m⟩
    | .error h m => ⟨.give (.error h), p, m⟩
  | .native f =>
    match takeArguments n m with
    | .ok args m => ⟨.body f args.toList, .outside :: p, m⟩
    | .error h m => ⟨.give (.error h), p, m⟩
  | other => give p (fault (.notCallable other.typeName) m)

/-- Calls a value. -/
def callNext (s : Setting) (p : List Waiting) (m : Machine) (callee : Value) (args : List Value) :
    Configuration :=
  match offer s callee args m with
  | .ok () m' => afterOffer s m.frames.length args.length p m' callee
  | .error h m' => ⟨.give (.error h), p, m'⟩

/-- Does what a function of the host asks for. -/
def actNext (s : Setting) (p : List Waiting) (m : Machine) : HostAction → Configuration
  | .done (.ok v) => ⟨.give (.ok v), p, m⟩
  | .done (.error f) => ⟨.give (.error (.failure f)), p, m⟩
  | .call callee args next =>
    match m.token.check with
    | .ok () => ⟨.call callee args, .host m.stack.size m.frames.length next :: p, m⟩
    | .error f => ⟨.act (next (.error { cause := f })), p, m⟩
  | .onHeap op next =>
    match op m.heap with
    | .ok v h => ⟨.act (next (.ok v)), p, { m with heap := h }⟩
    | .error f h => ⟨.act (next (.error f)), p, { m with heap := h }⟩
  | .limits next => ⟨.act (next s.limits), p, m⟩
  | .cancel next => ⟨.act next, p, { m with token := m.token.cancel }⟩

/-- Goes on with the result of a call. -/
def answer (next : Except Failure Value → HostAction) (p : List Waiting) :
    EStateM.Result Halt Machine Value → Configuration
  | .ok v m => ⟨.act (next (.ok v)), p, m⟩
  | .error (.failure f) m => ⟨.act (next (.error f)), p, m⟩
  | .error .outOfFuel m => ⟨.give (.error .outOfFuel), p, m⟩

/-- Hands a result to the first that waits. -/
def giveNext (s : Setting) (p : List Waiting) (m : Machine) (r : Except Halt Value) : Waiting → Configuration
  | .instruction floor =>
    match r with
    | .ok v => inLoop s floor p ((do alloc; push s v; return .flow .goOn : Exec Pause) m)
    | .error h => ⟨.give (.error (leaving s floor m h)), p, m⟩
  | .outside =>
    match r with
    | .ok v => give p ((do alloc; push s v; pop : Exec Value) m)
    | .error h => ⟨.give (.error h), p, m⟩
  | .host height depth next =>
    match r with
    | .ok v => ⟨.act (next (.ok v)), p, m⟩
    | .error (.failure f) => ⟨.act (next (.error f)), p, unwind height depth m⟩
    | .error .outOfFuel => ⟨.give (.error .outOfFuel), p, m⟩

/-- The next configuration; none when nothing waits for the result. -/
def next (s : Setting) (c : Configuration) : Option Configuration :=
  match c.doing, c.waiting with
  | .run floor, p => some (inLoop s floor p (begin s floor c.machine))
  | .call callee args, p => some (callNext s p c.machine callee args)
  | .body (.builtin b) args, p => some (give p (onHeap (b.call s.limits args) c.machine))
  | .body (.host name) args, p => some ⟨.act (s.host name args), p, c.machine⟩
  | .act a, p => some (actNext s p c.machine a)
  | .give r, w :: p => some (giveNext s p c.machine r w)
  | .give _, [] => none

/-- The configurations that are passed on the way from one to another. -/
inductive Path (s : Setting) : Configuration → List Configuration → Configuration → Prop where
  | refl (c : Configuration) : Path s c [] c
  | next {c d e : Configuration} {cs : List Configuration} : c.next s = some d → Path s d cs e →
      Path s c (c :: cs) e

/-- One configuration leads to another. -/
def Leads (s : Setting) (c d : Configuration) : Prop := ∃ cs, Path s c cs d

variable {c d e : Configuration} {p : List Waiting}

theorem Path.trans {cs ds : List Configuration} (h : Path s c cs d) (h' : Path s d ds e) : Path s c (cs ++ ds) e := by
  induction h with
  | refl => exact h'
  | next hnext _ ih => exact .next hnext (ih h')

/-- Paths from one configuration to an end go to the same end. -/
theorem Path.eq_of_ends {cs ds : List Configuration} {e : Configuration} (h : Path s c cs d) (h' : Path s c ds e)
    (hd : d.next s = none) (he : e.next s = none) : d = e := by
  induction h generalizing ds with
  | refl c =>
    cases h' with
    | refl => rfl
    | next hnext _ =>
      rw [hd] at hnext
      cases hnext
  | @next c c' d cs hnext htail ih =>
    cases h' with
    | refl =>
      rw [he] at hnext
      cases hnext
    | next hnext' htail' =>
      rw [hnext] at hnext'
      cases hnext'
      exact ih htail' hd

theorem Leads.refl (c : Configuration) : Leads s c c := ⟨[], .refl c⟩

theorem Leads.trans (h : Leads s c d) (h' : Leads s d e) : Leads s c e := by
  obtain ⟨cs, hcs⟩ := h
  obtain ⟨ds, hds⟩ := h'
  exact ⟨cs ++ ds, hcs.trans hds⟩

theorem Leads.step (h : c.next s = some d) (h' : Leads s d e) : Leads s c e := by
  obtain ⟨ds, hds⟩ := h'
  exact ⟨c :: ds, .next h hds⟩

/-! ### Runs are paths -/

theorem isFinal_error {α β : Type} {h : Halt} (hfinal : IsFinal (.error h m : EStateM.Result Halt Machine α)) :
    IsFinal (.error h m : EStateM.Result Halt Machine β) := by
  cases h with
  | failure f => trivial
  | outOfFuel => exact hfinal.elim

/-- A call of a value, as it is made for a function of the host, is a path. -/
def Answers (s : Setting) (inv : Invoke) : Prop :=
  ∀ (callee : Value) (args : List Value) (next : Except Failure Value → HostAction) (p : List Waiting)
    (m : Machine), IsFinal (inv callee args m) →
      Leads s ⟨.call callee args, .host m.stack.size m.frames.length next :: p, m⟩
        (answer next p (inv callee args m))

/-- What a function of the host does is a path. -/
theorem leads_perform (hinv : Answers s inv) (a : HostAction) (p : List Waiting) (m : Machine)
    (hfinal : IsFinal (perform s inv a m)) : Leads s ⟨.act a, p, m⟩ (give p (perform s inv a m)) := by
  induction a generalizing m with
  | done r =>
    cases r with
    | ok v | error f => exact .step rfl (.refl _)
  | call callee args next ih =>
    cases hcheck : m.token.check with
    | error f =>
      simp only [perform, bind_error (show checkToken m = _ by rw [checkToken, hcheck])] at hfinal ⊢
      exact .step (by simp only [Configuration.next, actNext, hcheck]) (ih _ m hfinal)
    | ok u =>
      have hok : (do checkToken; inv callee args) m = inv callee args m :=
        bind_ok (by rw [checkToken, hcheck])
      refine .step (by simp only [Configuration.next, actNext, hcheck]; rfl) ?_
      rw [perform] at hfinal ⊢
      simp only [hok] at hfinal ⊢
      have hcall := hinv callee args next p m
      cases hr : inv callee args m with
      | ok v m' =>
        rw [hr] at hcall hfinal
        exact (hcall trivial).trans (ih _ m' hfinal)
      | error h m' =>
        cases h with
        | failure f =>
          rw [hr] at hcall hfinal
          exact (hcall trivial).trans (ih _ m' hfinal)
        | outOfFuel =>
          rw [hr] at hfinal
          exact hfinal.elim
  | onHeap op next ih =>
    cases hop : op m.heap with
    | ok x h | error x h =>
      simp only [perform, takeHeap, hop] at hfinal ⊢
      exact .step (by simp only [Configuration.next, actNext, hop]) (ih _ _ hfinal)
  | limits next ih => exact .step rfl (ih s.limits m hfinal)
  | cancel next ih => exact .step rfl (ih _ hfinal)

/-- The body of a native function is a path. -/
theorem leads_body (hinv : Answers s inv) (f : Native) (args : List Value) (p : List Waiting) (m : Machine)
    (hfinal : IsFinal (body s inv args f m)) : Leads s ⟨.body f args, p, m⟩ (give p (body s inv args f m)) := by
  cases f with
  | builtin b => exact .step rfl (.refl _)
  | host name => exact .step rfl (leads_perform hinv _ p m hfinal)

/-- A loop is a path. -/
def Loops (s : Setting) (go : Nat → Exec (Option Value)) : Prop :=
  ∀ (floor : Nat) (p : List Waiting) (m : Machine), IsFinal (go floor m) →
    Leads s ⟨.run floor, p, m⟩ (give p ((do return (← go floor).getD .undefined : Exec Value) m))

section

variable (hinv : Answers s inv)
include hinv

theorem leads_callOffered (hgo : Loops s go)
    (floor n : Nat) (callee : Value) (p : List Waiting) (m : Machine)
    (hfinal : IsFinal (callOffered s (go floor) inv n callee m)) :
    Leads s (afterOffer s floor n p m callee) (give p (callOffered s (go floor) inv n callee m)) := by
  cases callee with
  | function f =>
    simp only [afterOffer, callOffered] at hfinal ⊢
    cases hcall : callFunction s f n false m with
    | error h m' =>
      rw [bind_error hcall]
      exact .refl _
    | ok u m' =>
      rw [bind_ok hcall] at hfinal ⊢
      refine hgo floor p m' ?_
      cases hr : go floor m' with
      | ok v m1 => trivial
      | error h m1 =>
        rw [bind_error hr] at hfinal
        exact isFinal_error hfinal
  | native f =>
    simp only [afterOffer, callOffered, callNative_eq, bind_assoc] at hfinal ⊢
    cases htake : takeArguments n m with
    | error h m' =>
      rw [bind_error htake]
      exact .refl _
    | ok args m' =>
      rw [bind_ok htake] at hfinal ⊢
      have hbody := leads_body hinv f args.toList (.outside :: p) m'
      cases hr : body s inv args.toList f m' with
      | error h m1 =>
        rw [hr] at hbody
        rw [bind_error hr] at hfinal ⊢
        exact (hbody (isFinal_error hfinal)).trans (.step rfl (.refl _))
      | ok v m1 =>
        rw [hr] at hbody
        rw [bind_ok hr]
        exact (hbody trivial).trans (.step rfl (.refl _))
  | _ => exact .refl _

theorem leads_callValue (hgo : Loops s go)
    (callee : Value) (args : List Value) (p : List Waiting) (m : Machine)
    (hfinal : IsFinal (callValue s go inv callee args m)) :
    Leads s ⟨.call callee args, p, m⟩ (give p (callValue s go inv callee args m)) := by
  rw [callValue_eq] at hfinal ⊢
  refine .step rfl ?_
  unfold callNext
  cases hoffer : offer s callee args m with
  | error h m' =>
    rw [bind_error hoffer]
    exact .refl _
  | ok u m' =>
    rw [bind_ok hoffer] at hfinal ⊢
    exact leads_callOffered hinv hgo _ _ callee p m' hfinal

theorem answers_guarded (hgo : Loops s go) :
    Answers s fun callee args => guarded (callValue s go inv callee args) := by
  intro callee args next p m hfinal
  simp only [guarded, unwinding] at hfinal ⊢
  have hcall := leads_callValue hinv hgo callee args (.host m.stack.size m.frames.length next :: p) m
  cases hr : callValue s go inv callee args m with
  | ok v m' =>
    rw [hr] at hcall
    exact (hcall trivial).trans (.step rfl (.refl _))
  | error h m' =>
    cases h with
    | failure f =>
      rw [hr] at hcall
      exact (hcall trivial).trans (.step rfl (.refl _))
    | outOfFuel =>
      rw [hr] at hfinal
      exact hfinal.elim

/-- An instruction with all that it calls is a path. -/
theorem leads_step (floor : Nat) (p : List Waiting) (m : Machine)
    (hfinal : IsFinal (step s inv floor m)) :
    Leads s ⟨.run floor, p, m⟩ (inLoop s floor p ((do return .flow (← step s inv floor) : Exec Pause) m)) := by
  rw [step_eq] at hfinal ⊢
  refine .step rfl ?_
  cases hbegin : begin s floor m with
  | error h m' =>
    rw [bind_error (bind_error hbegin)]
    exact .refl _
  | ok pause m' =>
    rw [bind_ok hbegin] at hfinal
    simp only [bind_assoc]
    rw [bind_ok hbegin]
    cases pause with
    | flow flow => exact .refl _
    | native f args =>
      have hbody := leads_body hinv f args (.instruction floor :: p) m'
      simp only [finish, bind_assoc] at hfinal ⊢
      cases hr : body s inv args f m' with
      | error h m1 =>
        rw [hr] at hbody
        rw [bind_error hr] at hfinal ⊢
        exact (hbody (isFinal_error hfinal)).trans (.step rfl (.refl _))
      | ok v m1 =>
        rw [hr] at hbody
        rw [bind_ok hr]
        exact (hbody trivial).trans (.step rfl (.refl _))

end

/-- Loops and calls are paths, whatever their fuel: each unit is one turn of the induction. -/
theorem loops_and_answers (s : Setting) (fuel : Nat) : Loops s (runLoop s fuel) ∧ Answers s (invoke s fuel) := by
  induction fuel with
  | zero =>
    constructor
    · intro floor p m hfinal
      exact hfinal.elim
    · intro callee args next p m hfinal
      exact hfinal.elim
  | succ fuel ih =>
    obtain ⟨hgo, hinv⟩ := ih
    refine ⟨?_, answers_guarded hinv hgo⟩
    intro floor p m hfinal
    have hstep := leads_step hinv floor p m
    cases hr : step s (invoke s fuel) floor m with
    | ok flow m' =>
      rw [bind_ok hr, hr] at hstep
      cases flow with
      | goOn =>
        have hloop : runLoop s (fuel + 1) floor m = runLoop s fuel floor m' := by simp only [runLoop, hr]
        rw [hloop] at hfinal
        have hrest := (hstep trivial).trans (hgo floor p m' hfinal)
        show Leads s _ (give p (EStateM.bind (runLoop s (fuel + 1) floor) _ m))
        rw [EStateM.bind, hloop]
        exact hrest
      | returned v =>
        have hloop : runLoop s (fuel + 1) floor m = .ok (some v) m' := by simp only [runLoop, hr]
        rw [bind_ok hloop]
        exact hstep trivial
      | suspended =>
        have hloop : runLoop s (fuel + 1) floor m = .ok none m' := by simp only [runLoop, hr]
        rw [bind_ok hloop]
        exact hstep trivial
    | error h m' =>
      rw [bind_error hr, hr] at hstep
      cases h with
      | failure f =>
        have hloop : runLoop s (fuel + 1) floor m = .error (.failure (f.addTrace (places s floor m'))) m' := by
          simp only [runLoop, hr]
        rw [bind_error hloop]
        exact hstep trivial
      | outOfFuel =>
        simp only [runLoop, hr] at hfinal
        exact hfinal.elim

/-- What a run gives when nothing waits for its result. -/
def ended (m : Machine) : Except Halt Value → EStateM.Result Halt Machine Value
  | .ok v => .ok v { m with status := .suspended }
  | .error (.failure f) => .error (.failure f) { m with status := .aborted, frames := [], stack := #[] }
  | .error .outOfFuel => .error .outOfFuel m

theorem start_eq (s : Setting) (fuel : Nat) :
    start s fuel = (do checkToken; enter s s.program.main 0) >>= fun _ => runLoop s fuel 0 :=
  (bind_assoc _ _ _).symm

/-- A run that comes to an end is a path, from the first instruction of the main function on. -/
theorem leads_run {m1 : Machine}
    (hstart : (do checkToken; enter s s.program.main 0 : Exec Unit) (m.reset s) = .ok () m1)
    (hfinal : IsFinal (m.run s fuel)) :
    ∃ r m2, Leads s ⟨.run 0, [], m1⟩ ⟨.give r, [], m2⟩ ∧ m.run s fuel = ended m2 r := by
  have hgo := (loops_and_answers s fuel).1 0 [] m1
  have hexec : start s fuel (m.reset s) = runLoop s fuel 0 m1 := by
    rw [start_eq, bind_ok hstart]
  unfold Machine.run at hfinal ⊢
  rw [hexec] at hfinal ⊢
  cases hr : runLoop s fuel 0 m1 with
  | ok v m2 =>
    rw [bind_ok hr, hr] at hgo
    exact ⟨_, m2, hgo trivial, rfl⟩
  | error h m2 =>
    rw [bind_error hr, hr] at hgo
    cases h with
    | failure f => exact ⟨_, m2, hgo trivial, rfl⟩
    | outOfFuel =>
      rw [hr] at hfinal
      exact hfinal.elim

/-- Two runs that end have the same outcome, however much fuel they had. -/
theorem run_eq_run {fuel' : Nat} (h : IsFinal (m.run s fuel)) (h' : IsFinal (m.run s fuel')) :
    m.run s fuel = m.run s fuel' := by
  cases hstart : (do checkToken; enter s s.program.main 0) (m.reset s) with
  | error e m1 => simp only [Machine.run, start_eq, bind_error hstart]
  | ok u m1 =>
    obtain ⟨r, m2, ⟨cs, hpath⟩, hrun⟩ := leads_run hstart h
    obtain ⟨r', m2', ⟨cs', hpath'⟩, hrun'⟩ := leads_run hstart h'
    cases hpath.eq_of_ends hpath' rfl rfl
    rw [hrun, hrun']

/-- What a call gives when nothing waits for its result; after a failure stack and frames are as before. -/
def returned (m0 m : Machine) : Except Halt Value → EStateM.Result Halt Machine Value
  | .ok v => .ok v m
  | .error (.failure f) => .error (.failure f) (unwind m0.stack.size m0.frames.length m)
  | .error .outOfFuel => .error .outOfFuel m

/-- A call that comes to an end is a path. -/
theorem leads_call {callee : Value} {args : List Value} (hfinal : IsFinal (m.call s fuel callee args)) :
    ∃ r m2, Leads s ⟨.call callee args, [], m⟩ ⟨.give r, [], m2⟩ ∧
      m.call s fuel callee args = returned m m2 r := by
  cases fuel with
  | zero => exact hfinal.elim
  | succ fuel =>
    obtain ⟨hgo, hinv⟩ := loops_and_answers s fuel
    have hcall := leads_callValue hinv hgo callee args [] m
    simp only [Machine.call, invoke, guarded, unwinding] at hfinal ⊢
    cases hr : callValue s (runLoop s fuel) (invoke s fuel) callee args m with
    | ok v m2 =>
      rw [hr] at hcall
      exact ⟨_, m2, hcall trivial, rfl⟩
    | error h m2 =>
      rw [hr] at hcall
      cases h with
      | failure f => exact ⟨_, m2, hcall trivial, rfl⟩
      | outOfFuel =>
        rw [hr] at hfinal
        exact hfinal.elim

end Configuration

/-! ### Hosts that hand failures on -/

/-- A function of the host hands on the failures of its calls as they are; `own` holds of the failures
that it makes itself. -/
def HostAction.Propagates (own : Failure → Prop) : HostAction → Prop
  | .done (.ok _) => True
  | .done (.error f) => own f
  | .call _ _ next => (∀ f, next (.error f) = .done (.error f)) ∧ ∀ v, (next (.ok v)).Propagates own
  | .onHeap _ next => ∀ r, (next r).Propagates own
  | .limits next => ∀ l, (next l).Propagates own
  | .cancel next => next.Propagates own

/-- All functions of a host hand failures on. -/
def Host.Propagates (own : Failure → Prop) (host : Host) : Prop :=
  ∀ name args, (host name args).Propagates own

/-- What waits hands failures on. -/
def Waiting.Propagates (own : Failure → Prop) : Waiting → Prop
  | .host _ _ next => (∀ f, next (.error f) = .done (.error f)) ∧ ∀ v, (next (.ok v)).Propagates own
  | _ => True

/-- What is done hands failures on. -/
def Doing.Propagates (own : Failure → Prop) : Doing → Prop
  | .act a => a.Propagates own
  | _ => True

namespace Configuration

open Exec

/-- What is done and what waits hands failures on. -/
structure Propagates (own : Failure → Prop) (c : Configuration) : Prop where
  doing : c.doing.Propagates own
  waiting : ∀ w ∈ c.waiting, w.Propagates own

variable {own : Failure → Prop} {c d : Configuration} {p : List Waiting}

section

variable (hp : ∀ w ∈ p, w.Propagates own)
include hp

theorem propagates_give (r : EStateM.Result Halt Machine Value) : (give p r).Propagates own := by
  cases r <;> exact ⟨trivial, hp⟩

theorem propagates_inLoop (r : EStateM.Result Halt Machine Pause) : (inLoop s floor p r).Propagates own := by
  cases r with
  | error h m => exact ⟨trivial, hp⟩
  | ok pause m =>
    cases pause with
    | flow flow => cases flow <;> exact ⟨trivial, hp⟩
    | native f args => exact ⟨trivial, List.forall_mem_cons.2 ⟨trivial, hp⟩⟩

theorem propagates_callNext (callee : Value) (args : List Value) : (callNext s p m callee args).Propagates own := by
  unfold callNext
  split
  · unfold afterOffer
    split
    · split <;> exact ⟨trivial, hp⟩
    · split
      · exact ⟨trivial, List.forall_mem_cons.2 ⟨trivial, hp⟩⟩
      · exact ⟨trivial, hp⟩
    · exact propagates_give hp _
  · exact ⟨trivial, hp⟩

end

theorem propagates_actNext (hfresh : ∀ cause, own { cause }) (hp : ∀ w ∈ p, w.Propagates own) {a : HostAction}
    (ha : a.Propagates own) : (actNext s p m a).Propagates own := by
  cases a with
  | done r => cases r <;> exact ⟨trivial, hp⟩
  | call callee args next =>
    unfold actNext
    dsimp only
    split
    · exact ⟨trivial, List.forall_mem_cons.2 ⟨ha, hp⟩⟩
    · refine ⟨?_, hp⟩
      -- the failure of the check is handed on
      rw [ha.1]
      exact hfresh _
  | onHeap op next =>
    unfold actNext
    dsimp only
    split
    · exact ⟨ha _, hp⟩
    · exact ⟨ha _, hp⟩
  | limits next => exact ⟨ha _, hp⟩
  | cancel next => exact ⟨ha, hp⟩

/-- A host that hands failures on does so in every configuration, at least until there is a failure. -/
theorem Propagates.next (hhost : s.host.Propagates own) (hfresh : ∀ cause, own { cause }) (hc : c.Propagates own)
    (hgive : ∀ f, c.doing = .give (.error (.failure f)) → own f) (h : c.next s = some d) : d.Propagates own := by
  obtain ⟨doing, waiting, m⟩ := c
  obtain ⟨hdoing, hwaiting⟩ := hc
  cases doing with
  | run floor =>
    cases h
    exact propagates_inLoop hwaiting _
  | call callee args =>
    cases h
    exact propagates_callNext hwaiting callee args
  | body f args =>
    cases f with
    | builtin b =>
      cases h
      exact propagates_give hwaiting _
    | host name =>
      cases h
      exact ⟨hhost name args, hwaiting⟩
  | act a =>
    cases h
    exact propagates_actNext hfresh hwaiting hdoing
  | give r =>
    cases waiting with
    | nil => cases h
    | cons w p =>
      cases h
      obtain ⟨hw, hp⟩ := List.forall_mem_cons.1 hwaiting
      cases w with
      | instruction floor =>
        cases r with
        | ok v => exact propagates_inLoop hp _
        | error e => exact ⟨trivial, hp⟩
      | outside =>
        cases r with
        | ok v => exact propagates_give hp _
        | error e => exact ⟨trivial, hp⟩
      | host height depth next =>
        cases r with
        | ok v => exact ⟨hw.2 v, hp⟩
        | error e =>
          cases e with
          | outOfFuel => exact ⟨trivial, hp⟩
          | failure f =>
            refine ⟨?_, hp⟩
            show (next (.error f)).Propagates own
            rw [hw.1]
            exact hgive f rfl

end Configuration

end ScriptEngine
