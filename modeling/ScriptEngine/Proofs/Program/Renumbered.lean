import ScriptEngine.Proofs.Expression.Lowered
import ScriptEngine.Proofs.Program.Merging
/-!
# Running code with new numbers of constants

Code that works on values and reads variables runs the same with new numbers for its constants, if the
constants are the same under their new numbers (`Code.exec_renumber`). Literals are merged with the
same literals only.
-/

namespace ScriptEngine

/-- A literal is merged with the same literals only. -/
theorem Dedup.Alike.eq_of_isLiteral {h : Heap} {v w : Value} (halike : Alike h v w) (hv : v.IsLiteral) : w = v := by
  rcases halike with rfl | ⟨key, hkey, hkey'⟩
  · rfl
  cases v with
  | int i | char i | string i =>
    cases hkey
    cases w <;> simp_all [keyOf]
  | float x =>
    cases hkey
    cases w with
    | float y =>
      simp only [keyOf, Option.some.injEq, ConstantKey.float.injEq] at hkey'
      obtain ⟨⟨bits, hvalid⟩⟩ := x
      obtain ⟨⟨bits', hvalid'⟩⟩ := y
      obtain rfl : bits' = bits := hkey'
      rfl
    | _ => simp_all [keyOf]
  | _ => exact hv.elim

section Renumber

variable {ρ : Nat → Nat} {c : Code} {s : Setting} {q : Program}

theorem Opcode.Basic.renumber {lo : Nat} {op : Opcode} {operands : List Nat} (h : op.Basic lo operands)
    (hsmall : ∀ k rest, op.takesConstant = true → operands = k :: rest → ρ k ≤ CompileM.maxWide) :
    op.Basic 0 (op.renumber ρ operands) := by
  rw [Opcode.renumber]
  split
  · next hop =>
    obtain ⟨k, rest, rfl, -⟩ := h.constant hop
    have hfits := h.fits
    refine ⟨h.steady, ?_, fun _ => ⟨ρ k, rest, rfl, Nat.zero_le _⟩⟩
    rw [Dedup.widths_of_takesConstant hop] at hfits ⊢
    exact ⟨Nat.lt_succ_of_le (hsmall k rest hop rfl), hfits.2⟩
  · exact ⟨h.steady, h.fits, fun hop => absurd hop ‹_›⟩

/-- The constant of an instruction is the same under its new number. -/
def Opcode.Kept (p q : Program) (ρ : Nat → Nat) (op : Opcode) (operands : List Nat) : Prop :=
  op.takesConstant = true → ∃ k rest v, operands = k :: rest ∧ q.constants[ρ k]? = some v ∧
    p.constants[k]? = some v

/-- An instruction that works on values and reads variables depends on the program only through its
constant. -/
theorem Exec.plain_renumber {op : Opcode} {operands : List Nat} (hsteady : op.isSteady = true)
    (hkept : op.Kept s.program q ρ operands) :
    plain { s with program := q } ⟨0, op, op.renumber ρ operands⟩ = plain s ⟨0, op, operands⟩ := by
  cases op with
  | const =>
    obtain ⟨k, rest, v, rfl, hnew, hold⟩ := hkept rfl
    show execute _ _ _ ⟨0, .const, ρ k :: rest⟩ = execute s _ _ ⟨0, .const, k :: rest⟩
    simp only [execute, Instruction.first, List.headD_cons, hnew, hold]
    rfl
  | jumpFalsy | andJump | orJump | jump | call | ret | setLocal | defineLocal | setSelLocal | setFree
  | captureFree | captureLocal | setSelFree | closure | suspend => cases hsteady
  | _ => rfl

theorem Code.exec_renumber (hsteady : c.Steady) (hkept : c.All (Opcode.Kept s.program q ρ)) (fuel : Nat) :
    (c.renumber ρ).exec { s with program := q } fuel = c.exec s fuel := by
  induction c with
  | nop | leave => rfl
  | instr pos op operands => simp only [renumber, exec, Exec.plain_renumber hsteady hkept]
  | seq a b iha ihb => simp only [renumber, exec, iha hsteady.1 hkept.1, ihb hsteady.2 hkept.2]
  | skip pos branch body ih => simp only [renumber, exec, ih hsteady hkept]
  | choose pos yes no ihy ihn => simp only [renumber, exec, ihy hsteady.1 hkept.1, ihn hsteady.2 hkept.2]
  | loop pos head tests body post ihh ihb ihp =>
    simp only [renumber, exec, ihh hsteady.1 hkept.1, ihb hsteady.2.1 hkept.2.1, ihp hsteady.2.2 hkept.2.2]

end Renumber

end ScriptEngine
