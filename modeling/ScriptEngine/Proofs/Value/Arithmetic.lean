import Mathlib.Algebra.Order.Ring.Int
import ScriptEngine.Value.Arithmetic
/-!
# Exact arithmetic

Integers of 64 bits and characters against whole numbers. Main statement: sums, products, quotients and shifts are
the exact ones up to multiples of 2 ^ 64, and a character is given if and only if the exact code is one
(`Value.binary_exact`).
-/

namespace ScriptEngine

namespace Arithmetic

variable {a b : Int64}

/-! ### Shifts -/

theorem isShift_iff : isShift b = true ↔ 0 ≤ b.toInt ∧ b.toInt < 64 := by
  rw [isShift, Bool.and_eq_true, decide_eq_true_iff, decide_eq_true_iff, Int64.le_iff_toInt_le, Int64.lt_iff_toInt_lt]
  rfl

theorem toNat_of_isShift (h : isShift b = true) : (b.toBitVec.smod 64).toNat = b.toInt.toNat := by
  obtain ⟨hlow, hhigh⟩ := isShift_iff.1 h
  have hbits : (b.toBitVec.smod 64).toInt = b.toInt := BitVec.toInt_smod.trans (Int.fmod_eq_of_lt hlow hhigh)
  have hmsb : (b.toBitVec.smod 64).msb = false := by
    rw [BitVec.msb_eq_toInt, hbits]
    exact decide_eq_false (Int.not_lt.2 hlow)
  rw [← hbits, BitVec.toInt_eq_toNat_of_msb hmsb, Int.toNat_natCast]

/-- A shift to the left multiplies. -/
theorem toInt_shl (a b : Int64) : (if isShift b then a <<< b else 0).toInt =
    if 0 ≤ b.toInt then (a.toInt * 2 ^ b.toInt.toNat).bmod (2 ^ 64) else 0 := by
  by_cases hshift : isShift b = true
  · rw [if_pos hshift, if_pos (isShift_iff.1 hshift).1, ← Int64.toInt_toBitVec, Int64.toBitVec_shiftLeft,
      BitVec.shiftLeft_eq', toNat_of_isShift hshift, BitVec.toInt_shiftLeft, ← Int64.toInt_toBitVec a,
      BitVec.toInt_eq_toNat_bmod, Int.bmod_mul_bmod, Nat.shiftLeft_eq]
    rfl
  · rw [if_neg hshift]
    split
    · next hlow =>
      -- all 64 bits are shifted out
      have hfar : 64 ≤ b.toInt.toNat := by
        rw [isShift_iff] at hshift
        omega
      obtain ⟨k, hk⟩ := Nat.exists_eq_add_of_le hfar
      rw [hk, pow_add, mul_left_comm]
      exact (Int.bmod_eq_zero_of_dvd ⟨_, rfl⟩).symm
    · rfl

/-- A shift to the right divides and rounds down. -/
theorem toInt_shr (a b : Int64) : (if isShift b then a >>> b else if a < 0 then -1 else 0).toInt =
    if 0 ≤ b.toInt then a.toInt / 2 ^ b.toInt.toNat else if a.toInt < 0 then -1 else 0 := by
  have hsign : (if a < 0 then -1 else 0 : Int64).toInt = if a.toInt < 0 then -1 else 0 := by
    rw [apply_ite Int64.toInt]
    exact if_congr Int64.lt_iff_toInt_lt rfl rfl
  by_cases hshift : isShift b = true
  · rw [if_pos hshift, if_pos (isShift_iff.1 hshift).1, ← Int64.toInt_toBitVec, Int64.toBitVec_shiftRight,
      BitVec.sshiftRight', toNat_of_isShift hshift, BitVec.toInt_sshiftRight, Int.shiftRight_eq_div_pow]
    rfl
  · rw [if_neg hshift, hsign]
    by_cases hlow : 0 ≤ b.toInt
    · -- only the sign is left
      have hfar : (2 : Int) ^ 64 ≤ 2 ^ b.toInt.toNat := by
        rw [isShift_iff] at hshift
        exact pow_le_pow_right₀ (by decide) (by omega)
      have hmin := a.le_toInt
      have hmax := a.toInt_lt
      split
      · next hneg => exact (Int.ediv_eq_neg_one_of_neg_of_le hneg (by omega)).symm
      · next hpos => exact (Int.ediv_eq_zero_of_lt (by omega) (by omega)).symm
    · rw [if_neg hlow]

/-! ### Quotients -/

theorem quotient_remainder (hb : b ≠ 0) : let q := (a / b).toInt; let r := (a % b).toInt
    (q * b.toInt + r).bmod (2 ^ 64) = a.toInt ∧ (r = 0 ∨ r.sign = a.toInt.sign) ∧ r.natAbs < b.toInt.natAbs := by
  intro q r
  have hb : b.toInt ≠ 0 := fun h => hb (Int64.toInt_inj.1 h)
  have hr : r = a.toInt.tmod b.toInt := Int64.toInt_mod a b
  refine ⟨?_, ?_, ?_⟩
  · have hq : q = _ := Int64.toInt_div a b
    rw [hq, hr, Int.add_bmod, Int.bmod_mul_bmod, ← Int.add_bmod, Int.tdiv_mul_add_tmod]
    exact Int.bmod_eq_of_le a.le_toInt a.toInt_lt
  · have hsign := Int.sign_tmod a.toInt b.toInt
    rw [← hr] at hsign
    split at hsign
    · exact .inl (Int.sign_eq_zero_iff_zero.1 hsign)
    · exact .inr hsign
  · rw [hr, Int.natAbs_tmod]
    exact Nat.mod_lt _ (Int.natAbs_pos.2 hb)

/-! ### Characters -/

theorem toNat_lt (c : Char) : c.toNat < 1114112 := by
  rcases c.valid with h | h
  · exact Nat.lt_trans h (by decide)
  · exact h.2

theorem toInt_code (c : Char) : (code c).toInt = c.toNat :=
  Int64.toInt_ofNat_of_lt (Nat.lt_trans (toNat_lt c) (by decide))

theorem charOf?_eq_some_iff {n : Int} {c : Char} : charOf? n = some c ↔ (c.toNat) = n := by
  rw [charOf?]
  constructor
  · intro h
    split at h
    · next hvalid =>
      cases h
      rw [Char.ofNat, dif_pos hvalid.2]
      exact Int.toNat_of_nonneg hvalid.1
    · cases h
  · rintro rfl
    rw [if_pos ⟨Int.natCast_nonneg _, c.valid⟩, Int.toNat_natCast, Char.ofNat_toNat]

/-- A code that wraps around is no character, neither before nor after. -/
theorem toNat_eq_bmod_iff (c : Char) {n : Int} (hlow : -2 ^ 63 - 1114112 < n) (hhigh : n < 2 ^ 63 + 1114112) :
    (c.toNat) = n.bmod (2 ^ 64) ↔ (c.toNat) = n := by
  have hlt := toNat_lt c
  rw [Int.bmod_def]
  split <;> omega

end Arithmetic

namespace Value

open Arithmetic

/-- What an operator gives on two integers. -/
def GivesInt (limits : Limits) (h : Heap) (a b : Int64) (op : Operator) (n : Int) : Prop :=
  ∃ v : Int64, (Value.int a).binary limits op (.int b) h = .ok (.int v) h ∧ v.toInt = n

/-- A result is the character with a code, or a complaint that there is none. -/
def GivesChar (h : Heap) (result : EStateM.Result Fault Heap Value) (code : Int) : Prop :=
  (∀ c : Char, result = .ok (.char c) h ↔ (c.toNat : Int) = code) ∧
    ((∃ n, result = .error (.invalidChar n) h) ↔ ∀ c : Char, (c.toNat : Int) ≠ code)

theorem givesChar_of_wraps {limits : Limits} {op : Operator} {v w : Value} {code : Int64} {n : Int}
    (hop : onAtoms limits op v w = charOf code) (hcode : code.toInt = n.bmod (2 ^ 64))
    (hlow : -2 ^ 63 - 1114112 < n) (hhigh : n < 2 ^ 63 + 1114112) (h : Heap) : GivesChar h (v.binary limits op w h) n := by
  have hchar : ∀ c, charOf? code.toInt = some c ↔ (c.toNat) = n := fun c => by
    rw [charOf?_eq_some_iff, hcode, toNat_eq_bmod_iff c hlow hhigh]
  have hresult : v.binary limits op w h = (charOf? code.toInt).elim (.error (.invalidChar code.toInt) h)
      fun c => .ok (.char c) h := by
    rw [binary, hop, charOf]
    cases charOf? code.toInt <;> rfl
  rw [hresult]
  cases hnone : charOf? code.toInt with
  | none => simp [GivesChar, ← hchar, hnone]
  | some c => simp [GivesChar, ← hchar, hnone]

/-- Operators on integers are exact modulo 2 ^ 64; a quotient or remainder fails exactly if the divisor is zero.
Sums and differences with characters are exact. -/
theorem binary_exact (limits : Limits) (h : Heap) (a b : Int64) (c d : Char) :
    GivesInt limits h a b .add ((a.toInt + b.toInt).bmod (2 ^ 64)) ∧
    GivesInt limits h a b .sub ((a.toInt - b.toInt).bmod (2 ^ 64)) ∧
    GivesInt limits h a b .mul ((a.toInt * b.toInt).bmod (2 ^ 64)) ∧
    (if b = 0 then (Value.int a).binary limits .quo (.int b) h = .error .divisionByZero h ∧
        (Value.int a).binary limits .rem (.int b) h = .error .divisionByZero h
      else ∃ q r, GivesInt limits h a b .quo q ∧ GivesInt limits h a b .rem r ∧
        (q * b.toInt + r).bmod (2 ^ 64) = a.toInt ∧ (r = 0 ∨ r.sign = a.toInt.sign) ∧ r.natAbs < b.toInt.natAbs) ∧
    GivesInt limits h a b .shl (if 0 ≤ b.toInt then (a.toInt * 2 ^ b.toInt.toNat).bmod (2 ^ 64) else 0) ∧
    GivesInt limits h a b .shr
      (if 0 ≤ b.toInt then a.toInt / 2 ^ b.toInt.toNat else if a.toInt < 0 then -1 else 0) ∧
    GivesChar h ((Value.char c).binary limits .add (.int a) h) (c.toNat + a.toInt) ∧
    GivesChar h ((Value.char c).binary limits .sub (.int a) h) (c.toNat - a.toInt) ∧
    GivesChar h ((Value.int a).binary limits .add (.char c) h) (a.toInt + c.toNat) ∧
    GivesChar h ((Value.int a).binary limits .sub (.char c) h) (a.toInt - c.toNat) ∧
    GivesChar h ((Value.char c).binary limits .add (.char d) h) (c.toNat + d.toNat) ∧
    GivesChar h ((Value.char c).binary limits .sub (.char d) h) (c.toNat - d.toNat) := by
  refine ⟨⟨_, rfl, Int64.toInt_add a b⟩, ⟨_, rfl, Int64.toInt_sub a b⟩, ⟨_, rfl, Int64.toInt_mul a b⟩, ?_,
    ⟨_, rfl, toInt_shl a b⟩, ⟨_, rfl, toInt_shr a b⟩, ?_⟩
  · split
    · next hzero =>
      subst hzero
      exact ⟨rfl, rfl⟩
    · next hb =>
      have hquo : (Value.int a).binary limits .quo (.int b) h = .ok (.int (a / b)) h := by
        rw [binary, show onAtoms limits .quo (.int a) (.int b) = _ from if_neg hb]
        rfl
      have hrem : (Value.int a).binary limits .rem (.int b) h = .ok (.int (a % b)) h := by
        rw [binary, show onAtoms limits .rem (.int a) (.int b) = _ from if_neg hb]
        rfl
      exact ⟨_, _, ⟨_, hquo, rfl⟩, ⟨_, hrem, rfl⟩, quotient_remainder hb⟩
  · have hc := toNat_lt c
    have hd := toNat_lt d
    have hmin := a.le_toInt
    have hmax := a.toInt_lt
    refine ⟨?_, ?_, ?_, ?_, ?_, ?_⟩ <;>
      refine givesChar_of_wraps rfl (by simp only [Int64.toInt_add, Int64.toInt_sub, toInt_code]) ?_ ?_ h <;> omega

end Value

end ScriptEngine
