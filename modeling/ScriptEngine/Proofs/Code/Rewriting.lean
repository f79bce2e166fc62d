import ScriptEngine.Proofs.Code.Decoded
import ScriptEngine.Proofs.Code.Renumber
/-!
# Codes with new numbers for constants

A code that can be read to its end is rewritten instruction by instruction. Main statement: if all constants that it
refers to have a new number, none larger than before, then it becomes a code of the same length with the same
instructions up to these numbers, and no byte changes in which no such number is written
(`Dedup.Renumbering.code_whole`).
-/

namespace ScriptEngine

variable {code : Array UInt8} {i : Instruction} {ls : List Line} {n start : Nat} {ρ : Nat → Nat}

/-! ### Codes with new numbers -/

/-- An instruction with a new number for its constant. -/
def Instruction.renumber (ρ : Nat → Nat) (i : Instruction) : Instruction :=
  { i with operands := i.op.renumber ρ i.operands }

/-- A code is another one with new numbers for its constants: a walk meets the same instructions up to these
numbers, and all bytes in which no such number is written are the same. -/
structure Renumbers (ρ : Nat → Nat) (code code' : Array UInt8) : Prop where
  walk : walk code' = { instructions := (walk code).instructions.map (·.renumber ρ) }
  size : code'.size = code.size
  bytes : ∀ n, (∀ i ∈ (ScriptEngine.walk code).instructions, i.op.takesConstant = true →
    n ≠ i.offset + 1 ∧ n ≠ i.offset + 2) → code'[n]? = code[n]?

/-- All constants that a function refers to are among the first `n`. -/
def Function.RefersBelow (f : Function) (n : Nat) : Prop :=
  ∀ i ∈ (walk f.code).instructions, i.op.takesConstant = true → i.first < n

/-! ### Bytes of renumbered lines -/

theorem Consecutive.renumber (h : Consecutive start ls) : Consecutive start (ls.map (Line.renumber ρ)) := by
  induction ls generalizing start with
  | nil => trivial
  | cons l rest ih => exact ⟨h.1, ih h.2⟩

/-- The bytes of a line with a new number differ at most in its second and third byte. -/
theorem Line.bytes_renumber (ρ : Nat → Nat) (l : Line) (h : l.op.takesConstant = true → n ≠ 1 ∧ n ≠ 2) :
    (l.renumber ρ).bytes[n]? = l.bytes[n]? := by
  obtain ⟨pos, offset, op, operands⟩ := l
  rw [Line.renumber, Line.bytes, Line.bytes, Opcode.renumber]
  by_cases hop : op.takesConstant = true
  · obtain ⟨hone, htwo⟩ := h hop
    simp only [if_pos hop]
    rw [Instruction.encode, Instruction.encode, Dedup.widths_of_takesConstant hop]
    rcases n with _ | _ | _ | n
    · rfl
    · exact absurd rfl hone
    · exact absurd rfl htwo
    · cases operands <;> rfl
  · simp only [if_neg hop]

theorem length_bytesOf_renumber (ρ : Nat → Nat) (ls : List Line) :
    (bytesOf (ls.map (Line.renumber ρ))).length = (bytesOf ls).length := by
  induction ls with
  | nil => rfl
  | cons l rest ih =>
    rw [List.map_cons, bytesOf_cons, bytesOf_cons, List.length_append, List.length_append, ih, Line.length_bytes,
      Line.length_bytes]
    rfl

theorem bytesOf_renumber (ρ : Nat → Nat) (hls : Consecutive start ls)
    (h : ∀ l ∈ ls, l.op.takesConstant = true → start + n ≠ l.offset + 1 ∧ start + n ≠ l.offset + 2) :
    (bytesOf (ls.map (Line.renumber ρ)))[n]? = (bytesOf ls)[n]? := by
  induction ls generalizing start n with
  | nil => rfl
  | cons l rest ih =>
    obtain ⟨rfl, hrest⟩ := hls
    have hlength : (l.renumber ρ).bytes.length = l.bytes.length := by rw [Line.length_bytes, Line.length_bytes]; rfl
    rw [List.map_cons, bytesOf_cons, bytesOf_cons, List.getElem?_append, List.getElem?_append, hlength]
    split
    · refine l.bytes_renumber ρ fun hop => ?_
      have := h l (List.mem_cons_self ..) hop
      omega
    · next hge =>
      rw [Line.length_bytes] at hge ⊢
      refine ih hrest fun l' hl' hop => ?_
      have := h l' (List.mem_cons_of_mem _ hl') hop
      omega

namespace Dedup

variable {r : Renumbering} {f : Function}

/-- A line of a code that refers to the first constants only. -/
theorem uses_toLine (hfits : i.toLine.Fits) (hrefers : i.op.takesConstant = true → i.first < n) :
    i.toLine.op.Uses n i.toLine.operands := by
  intro hop
  obtain ⟨offset, op, operands⟩ := i
  have hfits : OperandsFit op.widths operands := hfits
  have hop : op.takesConstant = true := hop
  rw [widths_of_takesConstant hop] at hfits
  cases operands with
  | nil => exact hfits.elim
  | cons k rest => exact ⟨k, rest, rfl, hrefers hop, Nat.le_of_lt_succ hfits.1⟩

/-- A new number that is not larger fits as well. -/
theorem fits_renumber (hfits : i.toLine.Fits) (hsmall : i.op.takesConstant = true → ρ i.first ≤ i.first) :
    (i.renumber ρ).toLine.Fits := by
  obtain ⟨offset, op, operands⟩ := i
  have hfits : OperandsFit op.widths operands := hfits
  show OperandsFit op.widths (op.renumber ρ operands)
  rw [Opcode.renumber]
  by_cases hop : op.takesConstant = true
  · rw [if_pos hop]
    rw [widths_of_takesConstant hop] at hfits ⊢
    cases operands with
    | nil => exact hfits.elim
    | cons k rest => exact ⟨Nat.lt_of_le_of_lt (hsmall hop) hfits.1, hfits.2⟩
  · rwa [if_neg hop]

theorem Renumbering.code_of_refers (hwhole : (walk code).fault = none)
    (hrefers : ∀ i ∈ (walk code).instructions, i.op.takesConstant = true → i.first < r.assigned.size) :
    r.code code = some (bytesOf (((walk code).instructions.toList.map Instruction.toLine).map
      (Line.renumber r.number))) := by
  have hcovers := covers_walk hwhole
  have hlines := Renumbering.code_lines (r := r) hcovers.consecutive fun l hl => by
    obtain ⟨i, hi, rfl⟩ := List.mem_map.1 hl
    exact uses_toLine (hcovers.fits i hi) (hrefers i (Array.mem_toList_iff.1 hi))
  rwa [bytesOf_walk hwhole] at hlines

/-- A code gets new numbers if all constants that it refers to have one. -/
theorem Renumbering.code_whole (hwhole : (walk code).fault = none)
    (hrefers : ∀ i ∈ (walk code).instructions, i.op.takesConstant = true → i.first < r.assigned.size)
    (hsmall : ∀ i < r.assigned.size, r.number i ≤ i) :
    ∃ bytes, r.code code = some bytes ∧ Renumbers r.number code bytes.toArray := by
  obtain ⟨is, his⟩ : ∃ is, is = (walk code).instructions.toList := ⟨_, rfl⟩
  have hcovers := covers_walk hwhole
  have hbytes := bytesOf_walk hwhole
  have hmem : ∀ {i}, i ∈ is ↔ i ∈ (walk code).instructions := by
    intro i
    rw [his, Array.mem_toList_iff]
  have hcode := Renumbering.code_of_refers hwhole hrefers
  rw [← his] at hcovers hbytes hcode
  have hconsecutive := hcovers.consecutive.renumber (ρ := r.number)
  refine ⟨_, hcode, ?_, ?_, fun n hn => ?_⟩
  · rw [walk_bytesOf hconsecutive]
    congr 1
    apply Array.toList_inj.1
    rw [Array.toList_map, ← his, List.map_map, List.map_map]
    refine List.map_congr_left fun i hi => ?_
    refine Line.Fits.instruction (fits_renumber (hcovers.fits i hi) fun hop => ?_)
    exact hsmall _ (hrefers i (hmem.1 hi) hop)
  · rw [List.size_toArray, length_bytesOf_renumber, hbytes, Array.length_toList]
  · rw [List.getElem?_toArray, bytesOf_renumber r.number hcovers.consecutive, hbytes, Array.getElem?_toList]
    intro l hl hop
    obtain ⟨i, hi, rfl⟩ := List.mem_map.1 hl
    rw [Nat.zero_add]
    exact hn i (hmem.1 hi) hop

end Dedup

end ScriptEngine
