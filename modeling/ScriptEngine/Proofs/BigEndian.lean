import ScriptEngine.Instruction
/-!
# Numbers in bytes

`width` bytes hold the numbers below `capacity width`. A number that is written is cut to its width,
so a number that fits is read back.
-/

namespace ScriptEngine

/-- How many numbers `width` bytes can hold. -/
def capacity : Nat → Nat
  | 0 => 1
  | width + 1 => 256 * capacity width

theorem shiftRight_eq_div_capacity (n width : Nat) : n >>> (8 * width) = n / capacity width := by
  induction width with
  | zero => simp [capacity]
  | succ width ih =>
    rw [Nat.mul_succ, Nat.shiftRight_add, ih, Nat.shiftRight_eq_div_pow, Nat.div_div_eq_div_mul]
    rw [capacity, Nat.mul_comm 256]

/-- Digits that are already read stand above those that follow. -/
theorem foldl_bigEndian (width n high : Nat) :
    (bigEndian width n).foldl (fun m b => m * 256 + b.toNat) high =
      high * capacity width + n % capacity width := by
  induction width generalizing high with
  | zero => simp [bigEndian, capacity, Nat.mod_one]
  | succ width ih =>
    have hdigit : ((n >>> (8 * width)).toUInt8).toNat = n / capacity width % 256 := by
      rw [shiftRight_eq_div_capacity]
      simp [Nat.toUInt8, UInt8.toNat_ofNat']
    rw [bigEndian, List.foldl_cons, ih, hdigit, capacity, Nat.mul_comm 256, Nat.mod_mul]
    rw [Nat.add_mul, Nat.mul_assoc, Nat.mul_comm 256, Nat.add_assoc]
    rw [Nat.add_comm (n % capacity width), Nat.mul_comm (capacity width) (n / capacity width % 256)]

theorem ofBigEndian_bigEndian {width n : Nat} (h : n < capacity width) : ofBigEndian (bigEndian width n) = n := by
  rw [ofBigEndian, foldl_bigEndian, Nat.zero_mul, Nat.zero_add, Nat.mod_eq_of_lt h]

theorem capacity_add (v w : Nat) : capacity (v + w) = capacity v * capacity w := by
  induction w with
  | zero => simp [capacity]
  | succ w ih => rw [← Nat.add_assoc, capacity, ih, capacity, Nat.mul_left_comm]

/-- Only the digits that are written count. -/
theorem bigEndian_mod {w k : Nat} (h : w ≤ k) (n : Nat) : bigEndian w (n % capacity k) = bigEndian w n := by
  induction w with
  | zero => rfl
  | succ w ih =>
    obtain ⟨d, rfl⟩ := Nat.exists_eq_add_of_le h
    have hcapacity : capacity (w + 1 + d) = capacity w * (256 * capacity d) := by
      rw [capacity_add, capacity, Nat.mul_comm 256, Nat.mul_assoc]
    have hdigit : ((n % capacity (w + 1 + d)) >>> (8 * w)).toUInt8 = (n >>> (8 * w)).toUInt8 := by
      apply UInt8.toNat_inj.1
      rw [shiftRight_eq_div_capacity, shiftRight_eq_div_capacity, hcapacity, Nat.mod_mul_right_div_self]
      simp [Nat.toUInt8, UInt8.toNat_ofNat', Nat.mod_mul_right_mod]
    rw [bigEndian, bigEndian, hdigit, ih (Nat.le_of_succ_le h)]

variable (bytes : List UInt8)

/-- Digits that are already read stand above those that follow. -/
theorem foldl_digits (high : Nat) :
    bytes.foldl (fun m b => m * 256 + b.toNat) high = high * capacity bytes.length + ofBigEndian bytes := by
  induction bytes generalizing high with
  | nil => simp [capacity, ofBigEndian]
  | cons b rest ih =>
    have hfirst : ofBigEndian (b :: rest) = b.toNat * capacity rest.length + ofBigEndian rest := by
      rw [ofBigEndian, List.foldl_cons, ih, Nat.zero_add]
    rw [List.foldl_cons, ih, hfirst, List.length_cons, capacity, Nat.add_mul, Nat.mul_assoc, Nat.add_assoc]

theorem ofBigEndian_lt : ofBigEndian bytes < capacity bytes.length := by
  induction bytes with
  | nil => decide
  | cons b rest ih =>
    rw [ofBigEndian, List.foldl_cons, foldl_digits, Nat.zero_add]
    have hdigit : b.toNat + 1 ≤ 256 := b.toNat_lt
    calc b.toNat * capacity rest.length + ofBigEndian rest
        < b.toNat * capacity rest.length + capacity rest.length := Nat.add_lt_add_left ih _
      _ = (b.toNat + 1) * capacity rest.length := by rw [Nat.add_mul, Nat.one_mul]
      _ ≤ 256 * capacity rest.length := Nat.mul_le_mul_right _ hdigit

/-- Bytes that were read as a number are what the number is written as. -/
theorem bigEndian_ofBigEndian : bigEndian bytes.length (ofBigEndian bytes) = bytes := by
  induction bytes with
  | nil => rfl
  | cons b rest ih =>
    have hlt := ofBigEndian_lt rest
    have hvalue : ofBigEndian (b :: rest) = b.toNat * capacity rest.length + ofBigEndian rest := by
      rw [ofBigEndian, List.foldl_cons, foldl_digits, Nat.zero_add]
    have hfirst : ofBigEndian (b :: rest) / capacity rest.length = b.toNat := by
      rw [hvalue, Nat.mul_comm, Nat.mul_add_div (Nat.zero_lt_of_lt hlt), Nat.div_eq_of_lt hlt, Nat.add_zero]
    have hrest : ofBigEndian (b :: rest) % capacity rest.length = ofBigEndian rest := by
      rw [hvalue, Nat.mul_comm, Nat.mul_add_mod, Nat.mod_eq_of_lt hlt]
    rw [List.length_cons, bigEndian, shiftRight_eq_div_capacity, hfirst, ← bigEndian_mod (Nat.le_refl _), hrest, ih]
    simp [Nat.toUInt8]

end ScriptEngine
