import Mathlib.Logic.Relation
import ScriptEngine.Machine.Run
/-!
# Steps of the machine

A step that goes on, whatever calls from native functions do, and what a run of such steps means for
the fuel of a run: a run with more fuel than steps goes on from where they lead, and one with less
runs out of fuel on the way. A run of steps may be confined to machines of some kind, such as those
that stand at a piece of code.
-/

namespace ScriptEngine

variable {m m' : Machine} {k : Nat}

namespace Exec

variable {s : Setting} {floor : Nat} {inside : Machine → Prop}

/-- A step that goes on. -/
def Goes (s : Setting) (floor : Nat) (m m' : Machine) : Prop :=
  ∀ invoke, step s invoke floor m = .ok .goOn m'

/-- A step after which execution does not go on. -/
def Halts (s : Setting) (floor : Nat) (m : Machine) (e : Halt) (m' : Machine) : Prop :=
  ∀ invoke, step s invoke floor m = .error e m'

/-- A number of steps that go on, each from a machine of some kind. -/
inductive Reaches (s : Setting) (floor : Nat) (inside : Machine → Prop) : Nat → Machine → Machine → Prop where
  | refl (m : Machine) : Reaches s floor inside 0 m m
  | step {m1 m2 m3 : Machine} {k : Nat} (hinside : inside m1) (hstep : Goes s floor m1 m2)
      (hrest : Reaches s floor inside k m2 m3) : Reaches s floor inside (k + 1) m1 m3

theorem Goes.reaches (h : Goes s floor m m') (hinside : inside m) :
    Reaches s floor inside 1 m m' := .step hinside h (.refl _)

theorem Reaches.trans {m1 m2 m3 : Machine} {j : Nat} (h1 : Reaches s floor inside j m1 m2)
    (h2 : Reaches s floor inside k m2 m3) : Reaches s floor inside (j + k) m1 m3 := by
  induction h1 with
  | refl _ =>
    rw [Nat.zero_add]
    exact h2
  | step hinside hstep _ ih =>
    rw [Nat.add_right_comm]
    exact .step hinside hstep (ih h2)

theorem runLoop_goes (h : Goes s floor m m') (fuel : Nat) :
    runLoop s (fuel + 1) floor m = runLoop s fuel floor m' := by
  simp only [runLoop, h (invoke s fuel)]

/-- A run with enough fuel goes on from where its steps lead. -/
theorem runLoop_of_reaches (h : Reaches s floor inside k m m') (fuel : Nat) :
    runLoop s (k + fuel) floor m = runLoop s fuel floor m' := by
  induction h with
  | refl _ => rw [Nat.zero_add]
  | step _ hstep _ ih => rw [Nat.add_right_comm, runLoop_goes hstep, ih]

/-- A run with less fuel than steps runs out of it. -/
theorem runLoop_outOfFuel {fuel : Nat} (h : Reaches s floor inside k m m') (hfuel : fuel ≤ k) :
    ∃ m1, runLoop s fuel floor m = .error .outOfFuel m1 := by
  induction h generalizing fuel with
  | refl m =>
    obtain rfl := Nat.le_zero.1 hfuel
    exact ⟨m, rfl⟩
  | @step m1 _ _ _ _ hstep _ ih =>
    cases fuel with
    | zero => exact ⟨m1, rfl⟩
    | succ fuel =>
      rw [runLoop_goes hstep]
      exact ih (Nat.le_of_succ_le_succ hfuel)

theorem runLoop_halts {f : Failure} (h : Halts s floor m (.failure f) m') (fuel : Nat) :
    runLoop s (fuel + 1) floor m = .error (.failure (f.addTrace (places s floor m'))) m' := by
  simp only [runLoop, h (invoke s fuel)]

theorem runLoop_stops (h : Halts s floor m .outOfFuel m') (fuel : Nat) :
    runLoop s (fuel + 1) floor m = .error .outOfFuel m' := by
  simp only [runLoop, h (invoke s fuel)]

/-- An execution with fuel ends in an outcome: with more fuel than some number that is its outcome, and
otherwise it runs out of fuel. -/
def Ends {α : Type} (x : Nat → EStateM.Result Halt Machine α) (r : EStateM.Result Halt Machine α) : Prop :=
  ∃ k, ∀ fuel, (fuel ≤ k ∧ ∃ m, x fuel = .error .outOfFuel m) ∨ (k < fuel ∧ x fuel = r)

theorem ends_runLoop {m1 : Machine} {r : EStateM.Result Halt Machine (Option Value)}
    (h : Reaches s floor inside k m m1) (hlast : ∀ fuel, runLoop s (fuel + 1) floor m1 = r) :
    Ends (fun fuel => runLoop s fuel floor m) r := by
  refine ⟨k, fun fuel => ?_⟩
  rcases Nat.lt_or_ge k fuel with hlt | hge
  · obtain ⟨d, rfl⟩ := Nat.exists_eq_add_of_lt hlt
    refine .inr ⟨hlt, ?_⟩
    show runLoop s (k + d + 1) floor m = r
    rw [Nat.add_assoc, runLoop_of_reaches h, hlast]
  · exact .inl ⟨hge, runLoop_outOfFuel h hge⟩

/-- Whether an execution ended without a failure. -/
def isOk {ε σ α : Type} : EStateM.Result ε σ α → Bool
  | .ok _ _ => true
  | .error _ _ => false

theorem exists_of_isOk {ε σ α : Type} {r : EStateM.Result ε σ α} (h : isOk r = true) : ∃ a s, r = .ok a s := by
  cases r with
  | ok a s => exact ⟨a, s, rfl⟩
  | error e s => cases h

/-! ### Until a machine leaves -/

section Confined

variable {invoke : Invoke} {m m1 m2 : Machine} {e : Halt}

/-- Steps that go on, each from a machine of some kind. -/
def Confined (s : Setting) (invoke : Invoke) (floor : Nat) (inside : Machine → Prop) : Machine → Machine → Prop :=
  Relation.ReflTransGen fun m m' => inside m ∧ step s invoke floor m = .ok .goOn m'

/-- The machine goes on until it is no longer of some kind. -/
def Leaves (s : Setting) (invoke : Invoke) (floor : Nat) (inside : Machine → Prop) (m m' : Machine) : Prop :=
  Confined s invoke floor inside m m' ∧ ¬ inside m'

/-- The machine is of some kind until a step does not go on. -/
def Breaks (s : Setting) (invoke : Invoke) (floor : Nat) (inside : Machine → Prop) (m : Machine) (e : Halt)
    (m' : Machine) : Prop :=
  ∃ m1, Confined s invoke floor inside m m1 ∧ inside m1 ∧ step s invoke floor m1 = .error e m'

theorem Reaches.confined (h : Reaches s floor inside k m m1) (invoke : Invoke) :
    Confined s invoke floor inside m m1 := by
  induction h with
  | refl _ => exact .refl
  | step hinside hstep _ ih => exact ih.head ⟨hinside, hstep invoke⟩

/-- Steps are determined, so that two machines that go no further are the same. -/
theorem Confined.eq (h1 : Confined s invoke floor inside m m1) (h2 : Confined s invoke floor inside m m2)
    (hlast1 : ∀ m', ¬ (inside m1 ∧ step s invoke floor m1 = .ok .goOn m'))
    (hlast2 : ∀ m', ¬ (inside m2 ∧ step s invoke floor m2 = .ok .goOn m')) : m1 = m2 := by
  have hunique : Relator.RightUnique fun m m' => inside m ∧ step s invoke floor m = .ok .goOn m' := by
    intro a b c hb hc
    cases hb.2.symm.trans hc.2
    rfl
  rcases Relation.ReflTransGen.total_of_right_unique hunique h1 h2 with h | h
  · rcases Relation.ReflTransGen.cases_head h with heq | ⟨m', hstep, -⟩
    · exact heq
    · exact absurd hstep (hlast1 m')
  · rcases Relation.ReflTransGen.cases_head h with heq | ⟨m', hstep, -⟩
    · exact heq.symm
    · exact absurd hstep (hlast2 m')

theorem Leaves.eq (h1 : Leaves s invoke floor inside m m1) (h2 : Leaves s invoke floor inside m m2) : m1 = m2 :=
  h1.1.eq h2.1 (fun _ h => h1.2 h.1) fun _ h => h2.2 h.1

theorem Leaves.not_breaks (h1 : Leaves s invoke floor inside m m1) : ¬ Breaks s invoke floor inside m e m2 := by
  rintro ⟨m', hpath, hinside, hstep⟩
  have hsame := h1.1.eq hpath (fun _ h => h1.2 h.1) fun _ h => by cases hstep.symm.trans h.2
  exact h1.2 (hsame ▸ hinside)

theorem Breaks.eq {e' : Halt} (h1 : Breaks s invoke floor inside m e m1)
    (h2 : Breaks s invoke floor inside m e' m2) : e = e' ∧ m1 = m2 := by
  obtain ⟨n1, hpath1, -, hstep1⟩ := h1
  obtain ⟨n2, hpath2, -, hstep2⟩ := h2
  obtain rfl := hpath1.eq hpath2 (fun _ h => by cases hstep1.symm.trans h.2) fun _ h => by
    cases hstep2.symm.trans h.2
  cases hstep1.symm.trans hstep2
  exact ⟨rfl, rfl⟩

end Confined

end Exec

end ScriptEngine
