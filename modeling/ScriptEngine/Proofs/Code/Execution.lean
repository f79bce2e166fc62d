import ScriptEngine.Proofs.Code.Reading
import ScriptEngine.Proofs.Machine.Plain
import ScriptEngine.Proofs.Machine.Steps
import ScriptEngine.Proofs.Syntax
/-!
# Running structured code

`Code.exec` runs code by its structure: what is skipped is not run, a loop is run round by round, and
what leaves a loop is handed outwards. Main statement: a machine that stands at the layout of such
code does the same by jumping from offset to offset (`Code.lands`).
-/

namespace ScriptEngine

open Exec

variable {m m1 shell : Machine} {again floor offset other out start : Nat} {s : Setting}

variable {l : Line} {next stop : Nat} {pos : Pos}

/-- Decides whether the code after a jump is run. -/
def Branch.enters : Branch → Exec Bool
  | .onFalsy => do
    let v ← pop
    return !(← inspect v.isFalsy)
  | .logicalAnd => do
    let v ← top
    if ← inspect v.isFalsy then return false
    discard pop
    return true
  | .logicalOr => do
    let v ← top
    if ← inspect v.isFalsy then
      discard pop
      return true
    return false

theorem Branch.blind_enters (branch : Branch) : Blind branch.enters := by
  cases branch with
  | onFalsy => exact Blind.pop.bind fun _ => (Blind.inspect _).bind fun _ => Blind.pure _
  | logicalAnd =>
    exact Blind.top.bind fun _ => (Blind.inspect _).bind fun _ =>
      Blind.ite (Blind.pure _) (Blind.pop.discard.bind fun _ => Blind.pure _)
  | logicalOr =>
    exact Blind.top.bind fun _ => (Blind.inspect _).bind fun _ =>
      Blind.ite (Blind.pop.discard.bind fun _ => Blind.pure _) (Blind.pure _)

/-- A jump that looks at the stack goes on after it or at its target. -/
theorem Exec.execute_branch (s : Setting) (invoke : Invoke) (floor offset : Nat) (branch : Branch) (target : Nat) :
    execute s invoke floor ⟨offset, branch.op, [target]⟩ = (do
      if ← branch.enters then return .goOn
      jump target
      return .goOn) := by
  cases branch with
  | onFalsy =>
    funext m
    simp only [execute, Branch.op, Branch.enters, bind, EStateM.bind]
    cases pop m with
    | error e m' => rfl
    | ok v m' => cases hfalsy : v.isFalsy m'.heap <;> simp [inspect, hfalsy] <;> rfl
  | logicalAnd | logicalOr =>
    funext m
    simp only [execute, Branch.op, Branch.enters, bind, EStateM.bind]
    cases top m with
    | error e m' => rfl
    | ok v m' =>
      cases hfalsy : v.isFalsy m'.heap <;> simp [inspect, hfalsy] <;>
        first
        | rfl
        | (show EStateM.bind (EStateM.map _ pop) _ m' = EStateM.bind (EStateM.bind (EStateM.map _ pop) _) _ m'
           simp only [EStateM.bind, EStateM.map]
           cases pop m' <;> rfl)

/-- Goes on, if there is a test, only when it holds. -/
def tested (tests : Bool) (x : Exec Exit) : Exec Exit :=
  if tests then do
    if ← Branch.onFalsy.enters then x else return .next
  else x

/-- Runs a loop for at most some rounds. What comes between the rounds belongs to the loop around. -/
def rounds (head : Exec Exit) (tests : Bool) (body post : Exec Exit) : Nat → Exec Exit
  | 0 => throw .outOfFuel
  | n + 1 => Exit.andThen head (tested tests (Exit.thenAgain body
      (Exit.andThen post (rounds head tests body post n))))

/-- Runs code, with at most `fuel` rounds for each loop. -/
def Code.exec (s : Setting) (fuel : Nat) : Code → Exec Exit
  | nop => return .next
  | instr _ op operands => do
    let _ ← plain s ⟨0, op, operands⟩
    return .next
  | seq a b => Exit.andThen (a.exec s fuel) (b.exec s fuel)
  | skip _ branch body => do
    if ← branch.enters then body.exec s fuel else return .next
  | choose _ yes no => do
    if ← Branch.onFalsy.enters then yes.exec s fuel else no.exec s fuel
  | loop _ head tests body post =>
    rounds (head.exec s fuel) tests (body.exec s fuel) (post.exec s fuel) fuel
  | leave _ isBreak => return if isBreak then .broke else .continued

/-- Every instruction apart from jumps works on values and reads variables. -/
def Code.Steady (c : Code) : Prop := c.All fun op _ => op.isSteady = true

/-! ### Machines at an offset -/

/-- A machine whose innermost call stands at a piece of its code. -/
def Frame.Within (f : Frame) (outer : List Frame) (first last : Nat) (m : Machine) : Prop :=
  ∃ offset current, m.frames = { f with next := offset, current } :: outer ∧ first ≤ offset ∧ offset < last

/-- A call that is running a piece of its code in a machine that nobody asked to stop, with the calls
around it. -/
structure Seat where
  shell : Machine
  frame : Frame
  outer : List Frame
  /-- Where the piece of code starts. -/
  first : Nat
  /-- Where it ends. -/
  last : Nat
  token : shell.token.check = .ok ()

namespace Seat

variable (seat : Seat)

/-- The call at an offset. -/
def frames (offset current : Nat) : List Frame := { seat.frame with next := offset, current } :: seat.outer

/-- A shell with the call at an offset. -/
def At (offset : Nat) (shell : Machine) : Prop :=
  ∃ current ticks, shell = { seat.shell with frames := seat.frames offset current, ticks }

/-- A machine whose call stands at the piece of code. -/
def Within (m : Machine) : Prop := seat.frame.Within seat.outer seat.first seat.last m

/-- A machine whose variables are those of the call. -/
structure Suits (m : Machine) : Prop where
  cells : m.cells = seat.shell.cells
  frame : m.frames.head?.map (fun f => (f.func, f.base)) = some (seat.frame.func, seat.frame.base)

/-- A line of the piece of code. -/
structure Has (l : Line) : Prop where
  stands : l.In seat.frame.func.code
  fits : l.Fits
  lower : seat.first ≤ l.offset
  upper : l.offset < seat.last

variable {seat : Seat}

theorem At.sameVariables (h : seat.At offset shell) (hm : seat.Suits m) : m.SameVariables shell := by
  obtain ⟨current, ticks, rfl⟩ := h
  exact ⟨hm.cells.symm, hm.frame.symm⟩

theorem Has.within (hl : seat.Has l) (h : seat.At l.offset shell) (m : Machine) : seat.Within (m.inside shell) := by
  obtain ⟨current, ticks, rfl⟩ := h
  exact ⟨l.offset, current, rfl, hl.lower, hl.upper⟩

theorem Suits.keep {α : Type} {x : Exec α} {a : α} {m' : Machine} (hm : seat.Suits m) (hx : Steady x)
    (h : x m = .ok a m') : seat.Suits m' := by
  rw [hx.keeps_ok h]
  exact ⟨hm.cells, hm.frame⟩

theorem At.tick (h : seat.At offset shell) :
    ∃ shell', seat.At offset shell' ∧ ∀ m : Machine, tick s (m.inside shell) = .ok () (m.inside shell') := by
  obtain ⟨current, ticks, rfl⟩ := h
  by_cases hcheck : max s.config.checkInterval 1 ≤ ticks + 1
  · refine ⟨_, ⟨current, 0, rfl⟩, fun m => ?_⟩
    simp [Exec.tick, Machine.inside, hcheck, checkToken, seat.token]
  · refine ⟨_, ⟨current, ticks + 1, rfl⟩, fun m => ?_⟩
    simp [Exec.tick, Machine.inside, hcheck]

theorem At.fetch (hl : l.In seat.frame.func.code) (h : seat.At l.offset shell) :
    ∃ shell', seat.At (l.offset + l.op.length) shell' ∧
      ∀ m : Machine, fetch (m.inside shell) = .ok l.instruction (m.inside shell') := by
  obtain ⟨current, ticks, rfl⟩ := h
  refine ⟨_, ⟨l.offset, ticks, rfl⟩, fun m => ?_⟩
  have hlt := (Array.getElem?_eq_some_iff.1 hl.byte).1
  simp only [Exec.fetch, Machine.inside, Seat.frames, hl.byte, Instruction.fetchAt_eq hlt, hl.decode]
  rfl

/-- A step executes the line that the machine stands at. -/
theorem At.step (hl : l.In seat.frame.func.code) (h : seat.At l.offset shell) :
    ∃ shell', seat.At (l.offset + l.op.length) shell' ∧ ∀ (m : Machine) invoke floor,
      step s invoke floor (m.inside shell) = execute s invoke floor l.instruction (m.inside shell') := by
  obtain ⟨shell1, h1, htick⟩ := h.tick
  obtain ⟨shell2, h2, hfetch⟩ := h1.fetch hl
  refine ⟨shell2, h2, fun m invoke floor => ?_⟩
  rw [Exec.step, bind_ok (htick m), bind_ok (hfetch m)]

theorem At.jump (h : seat.At offset shell) (target : Nat) :
    ∃ shell', seat.At target shell' ∧ ∀ m : Machine, jump target (m.inside shell) = .ok () (m.inside shell') := by
  obtain ⟨current, ticks, rfl⟩ := h
  exact ⟨_, ⟨current, ticks, rfl⟩, fun m => rfl⟩

/-- A step at a line that works on values and reads variables. -/
theorem At.steady (hl : seat.Has l) (hop : l.op.isSteady = true) (h : seat.At l.offset shell) :
    ∃ shell', seat.At (l.offset + l.op.length) shell' ∧ ∀ m, seat.Suits m → ∀ (invoke : Invoke) floor,
      Exec.step s invoke floor (m.inside shell) = inShell shell' (plain s ⟨0, l.op, l.operands⟩ m) := by
  obtain ⟨shell', h', hstep⟩ := h.step hl.stands
  refine ⟨shell', h', fun m hm invoke floor => ?_⟩
  have hsame := steady_plain (s := s) (i := ⟨0, l.op, l.operands⟩) hop m shell' (h'.sameVariables hm)
  rw [hstep, hl.fits.instruction, execute_eq_steady hop, ← hsame]
  cases l.op <;> rfl

/-- A step at a jump. -/
theorem At.jumps {target : Nat} (hl : seat.Has ⟨pos, offset, .jump, [target]⟩) (h : seat.At offset shell) :
    ∃ shell', seat.At target shell' ∧ ∀ m : Machine, Goes s floor (m.inside shell) (m.inside shell') := by
  obtain ⟨shell1, h1, hstep⟩ := h.step hl.stands
  obtain ⟨shell2, h2, hjump⟩ := h1.jump target
  refine ⟨shell2, h2, fun m invoke => ?_⟩
  rw [hstep, hl.fits.instruction]
  exact bind_ok (hjump m)

/-- What a step at a jump that looks at the stack does, depending on what the jump decides. -/
def branched (inside outside : Machine) : EStateM.Result Halt Machine Bool → EStateM.Result Halt Machine Flow
  | .ok true m => .ok .goOn (m.inside inside)
  | .ok false m => .ok .goOn (m.inside outside)
  | .error e m => .error e (m.inside inside)

/-- A step at a jump that looks at the stack. -/
theorem At.branches {branch : Branch} {target : Nat} (hl : seat.Has ⟨pos, offset, branch.op, [target]⟩)
    (h : seat.At offset shell) :
    ∃ inside outside, seat.At (offset + Code.jumpLength) inside ∧ seat.At target outside ∧
      ∀ m invoke,
        Exec.step s invoke floor (m.inside shell) = branched inside outside (branch.enters m) := by
  obtain ⟨shell1, h1, hstep⟩ := h.step hl.stands
  obtain ⟨shell2, h2, hjump⟩ := h1.jump target
  rw [Branch.length_op] at h1
  refine ⟨shell1, shell2, h1, h2, fun m invoke => ?_⟩
  rw [hstep, hl.fits.instruction]
  rw [execute_branch]
  have henters := branch.blind_enters m shell1
  cases hm : branch.enters m with
  | error e m' =>
    rw [hm] at henters
    exact bind_error henters
  | ok enters m' =>
    rw [hm] at henters
    rw [bind_ok henters]
    cases enters with
    | true => rfl
    | false => exact bind_ok (hjump m')

end Seat

/-! ### Code in its place -/

/-- The offset that code goes to at its end. -/
def Exit.target (after stop next : Nat) : Exit → Nat
  | .next => after
  | .broke => stop
  | .continued => next

/-- What a machine at the start of some code does, given the outcome of running the code by its
structure. When that ran out of fuel, the machine has not finished after as many steps. -/
def Lands (s : Setting) (floor fuel : Nat) (seat : Seat) (target : Exit → Nat) (m : Machine) :
    EStateM.Result Halt Machine Exit → Prop
  | .ok exit m' => seat.Suits m' ∧ ∃ k shell, seat.At (target exit) shell ∧
      Reaches s floor seat.Within k m (m'.inside shell)
  | .error e m' =>
    (∃ k m1 shell, Reaches s floor seat.Within k m m1 ∧ seat.Within m1 ∧ Halts s floor m1 e (m'.inside shell)) ∨
      (e = .outOfFuel ∧ ∃ k m1, fuel ≤ k ∧ Reaches s floor seat.Within k m m1)

section Lands

variable {fuel : Nat} {seat : Seat} {target : Exit → Nat} {r : EStateM.Result Halt Machine Exit}

theorem Lands.weaken {fewer : Nat} (h : Lands s floor fuel seat target m r) (hle : fewer ≤ fuel) :
    Lands s floor fewer seat target m r := by
  cases r with
  | ok exit m' => exact h
  | error e m' =>
    rcases h with h | ⟨he, k, m1, hk, hreach⟩
    · exact .inl h
    · exact .inr ⟨he, k, m1, Nat.le_trans hle hk, hreach⟩

theorem Lands.after {m0 : Machine} {j : Nat} (hreach : Reaches s floor seat.Within j m0 m)
    (h : Lands s floor fuel seat target m r) : Lands s floor (j + fuel) seat target m0 r := by
  cases r with
  | ok exit m' =>
    obtain ⟨hsuits, k, shell, hat, hrest⟩ := h
    exact ⟨hsuits, j + k, shell, hat, hreach.trans hrest⟩
  | error e m' =>
    rcases h with ⟨k, m1, shell, hrest, hwithin, hhalts⟩ | ⟨he, k, m1, hk, hrest⟩
    · exact .inl ⟨j + k, m1, shell, hreach.trans hrest, hwithin, hhalts⟩
    · exact .inr ⟨he, j + k, m1, Nat.add_le_add_left hk j, hreach.trans hrest⟩

/-- Code after other code. -/
theorem Lands.andThen {after : Nat} {x y : Exec Exit}
    (hx : Lands s floor fuel seat (Exit.target offset stop next) m (x m1))
    (hy : ∀ m2 shell, seat.Suits m2 → seat.At offset shell →
      Lands s floor fuel seat (Exit.target after stop next) (m2.inside shell) (y m2)) :
    Lands s floor fuel seat (Exit.target after stop next) m (Exit.andThen x y m1) := by
  rw [Exit.andThen]
  cases hxm : x m1 with
  | error e m' =>
    rw [hxm] at hx
    rw [bind_error hxm]
    exact hx
  | ok exit m' =>
    rw [hxm] at hx
    rw [bind_ok hxm]
    cases exit with
    | next =>
      obtain ⟨hsuits, k, shell, hat, hreach⟩ := hx
      exact ((hy m' shell hsuits hat).after hreach).weaken (Nat.le_add_left fuel k)
    | broke | continued => exact hx

/-- A choice whether to run the code after a jump. -/
theorem Lands.branch {branch : Branch} {yes no : Exec Exit} (hl : seat.Has ⟨pos, offset, branch.op, [other]⟩)
    (hm : seat.Suits m) (h : seat.At offset shell)
    (hyes : ∀ m1 shell, seat.Suits m1 → seat.At (offset + Code.jumpLength) shell →
      Lands s floor fuel seat target (m1.inside shell) (yes m1))
    (hno : ∀ m1 shell, seat.Suits m1 → seat.At other shell →
      Lands s floor fuel seat target (m1.inside shell) (no m1)) :
    Lands s floor fuel seat target (m.inside shell) ((do if ← branch.enters then yes else no) m) := by
  obtain ⟨inside, outside, hin, hout, hstep⟩ := h.branches hl
  have hstep := hstep m
  have hwithin := hl.within h m
  cases henters : branch.enters m with
  | error e m' =>
    rw [henters] at hstep
    rw [bind_error henters]
    exact .inl ⟨0, _, inside, .refl _, hwithin, hstep⟩
  | ok enters m' =>
    rw [henters] at hstep
    rw [bind_ok henters]
    have hsuits := hm.keep branch.blind_enters.steady henters
    cases enters with
    | true =>
      exact ((hyes m' inside hsuits hin).after (Goes.reaches hstep hwithin)).weaken (Nat.le_add_left fuel 1)
    | false =>
      exact ((hno m' outside hsuits hout).after (Goes.reaches hstep hwithin)).weaken (Nat.le_add_left fuel 1)

/-- Code that ends normally at the place where the machine is. -/
theorem Lands.done {exit : Exit} (hm : seat.Suits m) (h : seat.At (target exit) shell) :
    Lands s floor fuel seat target (m.inside shell) (.ok exit m) := ⟨hm, 0, shell, h, .refl _⟩

/-- A jump before code. -/
theorem Lands.jump (hl : seat.Has ⟨pos, offset, .jump, [other]⟩) (h : seat.At offset shell)
    (hrest : ∀ shell, seat.At other shell → Lands s floor fuel seat target (m.inside shell) r) :
    Lands s floor (fuel + 1) seat target (m.inside shell) r := by
  obtain ⟨shell', hat, hgoes⟩ := h.jumps hl
  rw [Nat.add_comm]
  exact (hrest shell' hat).after ((hgoes m).reaches (hl.within h m))

/-- A jump after code. -/
theorem Lands.thenJump {after : Nat} (h : Lands s floor fuel seat (Exit.target offset stop next) m r)
    (hl : seat.Has ⟨pos, offset, .jump, [after]⟩) : Lands s floor fuel seat (Exit.target after stop next) m r := by
  cases r with
  | error e m' => exact h
  | ok exit m' =>
    cases exit with
    | broke | continued => exact h
    | next =>
      obtain ⟨hsuits, k, shell, hat, hreach⟩ := h
      obtain ⟨shell', hat', hgoes⟩ := hat.jumps hl
      exact ⟨hsuits, k + 1, shell', hat', hreach.trans ((hgoes m').reaches (hl.within hat m'))⟩

/-- The body of a loop. -/
theorem Lands.thenAgain {body rest : Exec Exit}
    (hbody : Lands s floor fuel seat (Exit.target again out again) m (body m1))
    (hrest : ∀ m2 shell, seat.Suits m2 → seat.At again shell →
      Lands s floor fuel seat (Exit.target out stop next) (m2.inside shell) (rest m2)) :
    Lands s floor fuel seat (Exit.target out stop next) m (Exit.thenAgain body rest m1) := by
  rw [Exit.thenAgain]
  cases hbm : body m1 with
  | error e m' =>
    rw [hbm] at hbody
    rw [bind_error hbm]
    exact hbody
  | ok exit m' =>
    rw [hbm] at hbody
    rw [bind_ok hbm]
    obtain ⟨hsuits, k, shell, hat, hreach⟩ := hbody
    cases exit with
    | broke => exact ⟨hsuits, k, shell, hat, hreach⟩
    | next | continued =>
      exact ((hrest m' shell hsuits hat).after hreach).weaken (Nat.le_add_left fuel k)

/-- The rounds of a loop. The jump back makes each of them at least one step. -/
theorem Lands.rounds {test inside last : Nat} {tests : Bool} {head body post : Exec Exit}
    (hinside : inside = test + Code.testLength tests) (hhead : ∀ m shell, seat.Suits m → seat.At start shell →
      Lands s floor fuel seat (Exit.target test stop next) (m.inside shell) (head m))
    (htest : ∀ l ∈ Code.testLines pos test out tests, seat.Has l)
    (hbody : ∀ m shell, seat.Suits m → seat.At inside shell →
      Lands s floor fuel seat (Exit.target again out again) (m.inside shell) (body m))
    (hpost : ∀ m shell, seat.Suits m → seat.At again shell →
      Lands s floor fuel seat (Exit.target last stop next) (m.inside shell) (post m))
    (hback : seat.Has ⟨pos, last, .jump, [start]⟩) {n : Nat} (hn : n ≤ fuel) (hm : seat.Suits m)
    (h : seat.At start shell) : Lands s floor n seat (Exit.target out stop next) (m.inside shell)
      (ScriptEngine.rounds head tests body post n m) := by
  induction n generalizing m shell with
  | zero => exact .inr ⟨rfl, 0, _, Nat.le_refl 0, .refl _⟩
  | succ n ih =>
    refine ((hhead m shell hm h).weaken hn).andThen fun m1 shell1 hm1 h1 => ?_
    have hround : ∀ m2 shell2, seat.Suits m2 → seat.At inside shell2 →
        Lands s floor (n + 1) seat (Exit.target out stop next) (m2.inside shell2)
          (Exit.thenAgain body (Exit.andThen post (ScriptEngine.rounds head tests body post n)) m2) := by
      intro m2 shell2 hm2 h2
      refine ((hbody m2 shell2 hm2 h2).weaken hn).thenAgain fun m3 shell3 hm3 h3 => ?_
      refine ((hpost m3 shell3 hm3 h3).weaken hn).andThen fun m4 shell4 hm4 h4 => ?_
      exact Lands.jump hback h4 fun shell5 h5 => ih (Nat.le_of_succ_le hn) hm4 h5
    cases tests with
    | false =>
      subst hinside
      exact hround m1 shell1 hm1 h1
    | true =>
      subst hinside
      have hl := htest _ (List.mem_singleton.2 rfl)
      exact Lands.branch hl hm1 h1 hround fun m2 shell2 hm2 h2 => Lands.done hm2 h2

/-- A machine at the start of code does what running the code by its structure does. -/
theorem Code.lands {c : Code} (hsteady : c.Steady) (hlines : ∀ l ∈ c.lines start stop next, seat.Has l)
    (hm : seat.Suits m) (h : seat.At start shell) :
    Lands s floor fuel seat (Exit.target (start + c.size) stop next) (m.inside shell) (c.exec s fuel m) := by
  induction c generalizing m start stop next shell with
  | nop => exact Lands.done hm h
  | instr pos op operands =>
    have hl := hlines _ (List.mem_singleton.2 rfl)
    obtain ⟨shell', h', hstep⟩ := h.steady (s := s) hl hsteady
    have hstep := fun invoke => hstep m hm invoke floor
    have hwithin := hl.within h m
    rw [Code.exec]
    cases hexec : Exec.plain s ⟨0, op, operands⟩ m with
    | error e m' =>
      rw [hexec] at hstep
      rw [bind_error hexec]
      exact .inl ⟨0, _, shell', .refl _, hwithin, hstep⟩
    | ok flow m' =>
      obtain rfl := ensures_plain (i := ⟨0, op, operands⟩) hsteady m flow m' hexec
      rw [hexec] at hstep
      rw [bind_ok hexec]
      exact ⟨hm.keep (steady_plain (i := ⟨0, op, operands⟩) hsteady) hexec, 1, shell', h', Goes.reaches hstep hwithin⟩
  | seq a b iha ihb =>
    have ha := iha hsteady.1 (fun l hl => hlines l (List.mem_append_left _ hl)) hm h
    refine ha.andThen fun m1 shell1 hm1 h1 => ?_
    rw [Code.size, ← Nat.add_assoc]
    exact ihb hsteady.2 (fun l hl => hlines l (List.mem_append_right _ hl)) hm1 h1
  | skip pos branch body ih =>
    have hl := hlines _ List.mem_cons_self
    rw [Code.size, ← Nat.add_assoc]
    refine Lands.branch hl hm h (fun m1 shell1 hm1 h1 => ?_) fun m1 shell1 hm1 h1 => Lands.done hm1 h1
    exact ih hsteady (fun l hl => hlines l (List.mem_cons_of_mem _ hl)) hm1 h1
  | choose pos yes no ihy ihn =>
    obtain ⟨htest, hrest⟩ := List.forall_mem_cons.1 hlines
    obtain ⟨hyes, hrest⟩ := List.forall_mem_append.1 hrest
    obtain ⟨hjump, hno⟩ := List.forall_mem_cons.1 hrest
    have hsize : start + (Code.choose pos yes no).size =
        start + jumpLength + yes.size + jumpLength + no.size := by
      simp only [Code.size]
      omega
    rw [hsize]
    refine Lands.branch htest hm h (fun m1 shell1 hm1 h1 => ?_) fun m1 shell1 hm1 h1 => ihn hsteady.2 hno hm1 h1
    exact (ihy hsteady.1 hyes hm1 h1).thenJump hjump
  | loop pos head tests body post ihh ihb ihp =>
    obtain ⟨hhead, hrest⟩ := List.forall_mem_append.1 hlines
    obtain ⟨htest, hrest⟩ := List.forall_mem_append.1 hrest
    obtain ⟨hbody, hrest⟩ := List.forall_mem_append.1 hrest
    obtain ⟨hpost, hback⟩ := List.forall_mem_append.1 hrest
    have hback := hback _ (List.mem_singleton.2 rfl)
    have hsize : start + (Code.loop pos head tests body post).size =
        start + head.size + testLength tests + body.size + post.size + jumpLength := by
      simp only [Code.size]
      omega
    rw [hsize]
    exact Lands.rounds rfl (fun m1 shell1 hm1 h1 => ihh hsteady.1 hhead hm1 h1) htest
      (fun m1 shell1 hm1 h1 => ihb hsteady.2.1 hbody hm1 h1)
      (fun m1 shell1 hm1 h1 => ihp hsteady.2.2 hpost hm1 h1) hback (Nat.le_refl fuel) hm h
  | leave pos isBreak =>
    have hl := hlines _ (List.mem_singleton.2 rfl)
    refine (Lands.jump hl h fun shell1 h1 => Lands.done hm ?_).weaken (Nat.le_succ fuel)
    cases isBreak <;> exact h1

end Lands

end ScriptEngine
