import ScriptEngine.Proofs.Machine.Lockstep
import ScriptEngine.Proofs.Machine.Steps
/-!
# Limits only cut a run short

A run that ends without reaching a limit ends in the same way under larger limits: with the same value or
the same failure, the same globals and heap and as many allocations (`Machine.run_of_roomier`). Both
machines go in lockstep, with nothing moved and the failures at limits excused.
-/

namespace ScriptEngine

/-- Whether a fault says that a limit was reached. -/
def Fault.isLimit : Fault → Bool
  | .stringLimit | .bytesLimit | .arrayLimit | .allocationLimit | .stackOverflow => true
  | _ => false

section Unmoved

open Correspondence (unmoved)

variable {excused : Fault → Prop} {n : Nat} {a1 a2 : Int} {s : Setting}

theorem Frame.eq_of_tied {f g : Frame} (h : f.Tied ((unmoved excused).tie n a1 a2) g) : f = g := by
  obtain ⟨func, next, current, base⟩ := f
  obtain ⟨hfunc, -, -, hnext, hcurrent, hbase⟩ := h
  cases hfunc
  cases hnext
  cases hcurrent
  cases hbase
  rfl

/-- Machines that are tied where nothing moves are the same, but for the allocations that are left. -/
theorem Machine.eq_of_tied {m1 m2 : Machine} (h : m1.Tied ((unmoved excused).tie n a1 a2) s m2) :
    m2 = { m1 with allocs := m2.allocs } := by
  have hvalues : ∀ {xs ys}, Pointwise (Value.Corresponds (unmoved excused)) xs ys → xs = ys :=
    (Pointwise.eq_iff Value.corresponds_unmoved_iff).1
  have hheap := Heap.eq_of_corresponds h.heap.corresponds (hvalues h.heap.contents) (h.heap.newFunction 0)
  have hframes : m1.frames = m2.frames := by
    rw [← List.forall₂_eq_eq_eq]
    exact h.frames.imp fun _ _ => Frame.eq_of_tied
  have hcells : m1.cells = m2.cells := (Pointwise.eq_iff Iff.rfl).1 (h.cells.imp fun _ _ h => h.1.symm)
  have hcaptures : m1.captures = m2.captures :=
    (Pointwise.eq_iff Iff.rfl).1 (h.captures.imp fun _ _ h => h.2)
  have hglobals := hvalues h.globals.corresponds
  have hstack := hvalues h.stack.corresponds
  have hticks := h.ticks
  have htoken := h.token
  have hstatus := h.status
  cases m2
  simp_all

end Unmoved

/-! ### Larger limits -/

/-- The second setting is for the same program and allows at least as much as the first one. A negative number
of allocations is any number. -/
structure Setting.Roomier (s₁ s₂ : Setting) : Prop where
  program : s₂.program = s₁.program
  maxString : s₁.limits.maxString ≤ s₂.limits.maxString
  maxBytes : s₁.limits.maxBytes ≤ s₂.limits.maxBytes
  maxArray : s₁.limits.maxArray ≤ s₂.limits.maxArray
  maxAllocs : s₂.limits.maxAllocs < 0 ∨ 0 ≤ s₁.limits.maxAllocs ∧ s₁.limits.maxAllocs ≤ s₂.limits.maxAllocs
  stackSize : s₁.config.stackSize ≤ s₂.config.stackSize
  maxFrames : s₁.config.maxFrames ≤ s₂.config.maxFrames
  checkInterval : s₂.config.checkInterval = s₁.config.checkInterval
  reuseFrames : s₂.config.reuseFrames = s₁.config.reuseFrames

theorem Setting.Roomier.corresponds {s₁ s₂ : Setting} (h : s₁.Roomier s₂) (hhost₁ : s₁.host = Host.none)
    (hhost₂ : s₂.host = Host.none) : s₁.Corresponds (.unmoved (·.isLimit = true)) s₂ where
  files := by rw [h.program]
  runs := by
    rw [h.program]
    exact Correspondence.runs_unmoved _
  main := by
    rw [h.program]
    rfl
  limits := ⟨.inr ⟨h.maxString, rfl⟩, .inr ⟨h.maxBytes, rfl⟩, .inr ⟨h.maxArray, rfl⟩⟩
  allocs := .inr ⟨h.maxAllocs, rfl⟩
  stackSize := .inr ⟨h.stackSize, rfl⟩
  maxFrames := .inr ⟨h.maxFrames, rfl⟩
  interval := h.checkInterval
  reuse := h.reuseFrames
  host := by
    rw [hhost₁, hhost₂]
    exact Host.corresponds_none _ _ _

/-- The same outcome, after which everything is the same but for the allocations that are left: as many were
counted in both runs. -/
inductive SameOutcome (s₁ s₂ : Setting) :
    EStateM.Result Halt Machine Value → EStateM.Result Halt Machine Value → Prop where
  | value {v : Value} {m : Machine} {n : Nat} {a : Int} (h₁ : Spent n s₁.limits.maxAllocs m.allocs)
      (h₂ : Spent n s₂.limits.maxAllocs a) : SameOutcome s₁ s₂ (.ok v m) (.ok v { m with allocs := a })
  | failure {f : Failure} {m : Machine} {n : Nat} {a : Int} (h₁ : Spent n s₁.limits.maxAllocs m.allocs)
      (h₂ : Spent n s₂.limits.maxAllocs a) :
      SameOutcome s₁ s₂ (.error (.failure f) m) (.error (.failure f) { m with allocs := a })

/-- A run that ends, and not because it reached a limit, ends in the same way where more is allowed. -/
theorem Machine.run_of_roomier {s₁ s₂ : Setting} (h : s₁.Roomier s₂) (hhost₁ : s₁.host = Host.none)
    (hhost₂ : s₂.host = Host.none) (m : Machine) (fuel : Nat) (hends : Exec.IsFinal (run s₁ fuel m))
    (hwithin : ∀ f m', run s₁ fuel m = .error (.failure f) m' → f.cause.isLimit = false) :
    SameOutcome s₁ s₂ (run s₁ fuel m) (run s₂ fuel m) := by
  have hstart : m.Corresponds (.unmoved (·.isLimit = true)) m :=
    ⟨m.heap.corresponds_unmoved, (Pointwise.eq_iff Value.corresponds_unmoved_iff).2 rfl, fun _ => rfl,
      (Pointwise.eq_iff Value.corresponds_unmoved_iff).2 rfl, rfl⟩
  have hrun := Exec.agree_run (h.corresponds hhost₁ hhost₂) fuel hstart rfl
  generalize run s₁ fuel m = r₁, run s₂ fuel m = r₂ at hrun hends hwithin
  cases hrun with
  | ok hv hm =>
    obtain ⟨n, h₁, h₂⟩ := hm.allocs
    rw [Machine.eq_of_tied hm, ← Value.corresponds_unmoved_iff.1 hv.corresponds]
    exact .value h₁ h₂
  | @error e _ _ hm =>
    obtain ⟨n, h₁, h₂⟩ := hm.allocs
    cases e with
    | failure f =>
      rw [Machine.eq_of_tied hm]
      exact .failure h₁ h₂
    | outOfFuel => exact hends.elim
  | excused hlimit =>
    have hlimit : _ = true := hlimit
    rw [hwithin _ _ rfl] at hlimit
    cases hlimit

/-- Puts two texts together and keeps the result in a global. -/
def joining : Program where
  main := { code := #[Opcode.const.byte, 0, 0, Opcode.const.byte, 0, 1, Opcode.binary.byte, Operator.add.code.toUInt8,
    Opcode.setGlobal.byte, 0, 0, Opcode.suspend.byte] }
  constants := #[.string "ab", .string "cde"]

/-- A setting in which the text of five bytes just fits and a single value may be allocated. -/
def Setting.narrow : Setting where
  program := joining
  limits := { maxString := 5, maxAllocs := 1 }
  config := { stackSize := 2, maxFrames := 1 }

theorem Machine.run_of_roomier_narrow : Exec.isOk (run .narrow 6 { globals := #[.undefined] }) = true ∧
    SameOutcome .narrow { program := joining } (run .narrow 6 { globals := #[.undefined] })
      (run { program := joining } 6 { globals := #[.undefined] }) := by
  have hok : Exec.isOk (run .narrow 6 { globals := #[.undefined] }) = true := by decide +kernel
  have hroomier : Setting.narrow.Roomier { program := joining } := by
    refine ⟨rfl, ?_, ?_, ?_, ?_, ?_, ?_, rfl, rfl⟩ <;> decide
  obtain ⟨v, m, hrun⟩ := Exec.exists_of_isOk hok
  refine ⟨hok, run_of_roomier hroomier rfl rfl _ 6 ?_ ?_⟩
  · rw [hrun]
    exact Exec.isFinal_ok v m
  · intro f m' hfailed
    rw [hrun] at hfailed
    cases hfailed

end ScriptEngine
