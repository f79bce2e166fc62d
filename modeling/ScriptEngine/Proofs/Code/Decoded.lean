import ScriptEngine.Proofs.Code.Reading
/-!
# Code that can be read to its end

Bytes that are read as instructions are the bytes that these instructions are written as. So a code that can
be read to its end, whoever made it, is nothing but the instructions that a walk meets (`bytesOf_walk`), and
what is known about laid-out code is known about it.
-/

namespace ScriptEngine

variable {code : Array UInt8} {i : Instruction} {offset : Nat} {byte : UInt8}

theorem Opcode.byte_of_ofByte? {b : UInt8} {op : Opcode} (h : ofByte? b = some op) : op.byte = b := by
  have hbytes : ∀ n : Fin all.size, all[n].byte.toNat = n := by decide
  obtain ⟨hlt, rfl⟩ := Array.getElem?_eq_some_iff.1 h
  exact UInt8.toNat_inj.1 (hbytes ⟨b.toNat, hlt⟩)

namespace Instruction

variable {start at_ : Nat}

theorem readOperands_standsAt {ws ns : List Nat} (h : readOperands code start at_ ws = .ok ns) :
    StandsAt code (start + at_) (encodeOperands ws ns) ∧ OperandsFit ws ns := by
  induction ws generalizing at_ ns with
  | nil =>
    cases h
    exact ⟨List.nil_prefix, trivial⟩
  | cons w ws ih =>
    rw [readOperands] at h
    split at h
    · next hroom =>
      split at h
      · next operands hrest =>
        cases h
        obtain ⟨hstands, hfits⟩ := ih hrest
        -- the bytes of the first operand
        obtain ⟨bytes, hbytes⟩ : ∃ bytes, bytes = (code.toList.drop (start + at_)).take w := ⟨_, rfl⟩
        have hlength : bytes.length = w := by
          have hsize : code.toList.length = code.size := Array.length_toList
          rw [hbytes, List.length_take, List.length_drop]
          omega
        have hfirst : StandsAt code (start + at_) bytes := hbytes ▸ List.take_prefix ..
        have hnumber : numberAt code (start + at_) w 0 = ofBigEndian bytes := by
          rw [← hlength, numberAt_of_standsAt hfirst]
          rfl
        rw [hnumber]
        refine ⟨?_, hlength ▸ ofBigEndian_lt bytes, hfits⟩
        have hwritten : bigEndian w (ofBigEndian bytes) = bytes := hlength ▸ bigEndian_ofBigEndian bytes
        have hdrop : code.toList.drop (start + (at_ + w)) = (code.toList.drop (start + at_)).drop w := by
          rw [List.drop_drop, Nat.add_assoc]
        obtain ⟨rest, hrest⟩ := hstands
        refine ⟨rest, ?_⟩
        rw [encodeOperands, hwritten, List.append_assoc, hrest, hbytes, hdrop, List.take_append_drop]
      · cases h
    · cases h

/-- An instruction that was read stands where it was read, and its operands fit. -/
theorem standsAt_of_decodeAt (hbyte : code[offset]? = some byte) (h : decodeAt code offset byte = .ok i) :
    StandsAt code offset (encode i.op i.operands) ∧ OperandsFit i.op.widths i.operands := by
  rw [decodeAt] at h
  split at h
  · cases h
  · next op hop =>
    split at h
    · next operands hoperands =>
      cases h
      obtain ⟨⟨rest, hrest⟩, hfits⟩ := readOperands_standsAt hoperands
      refine ⟨⟨rest, ?_⟩, hfits⟩
      obtain ⟨hlt, hget⟩ := List.getElem?_eq_some_iff.1 (Array.getElem?_toList.symm ▸ hbyte)
      rw [encode, Opcode.byte_of_ofByte? hop, List.cons_append, hrest, List.drop_eq_getElem_cons hlt, hget]
    · cases h

/-- An instruction as a line from nowhere. -/
def toLine (i : Instruction) : Line := ⟨Pos.unknown, i.offset, i.op, i.operands⟩

end Instruction

/-! ### Walks -/

/-- Instructions that make up the first bytes of a code. -/
structure Covers (code : Array UInt8) (size : Nat) (is : List Instruction) : Prop where
  consecutive : Consecutive 0 (is.map Instruction.toLine)
  fits : ∀ i ∈ is, i.toLine.Fits
  bytes : bytesOf (is.map Instruction.toLine) = code.toList.take size

theorem Covers.concat {is : List Instruction} (h : Covers code offset is) (hbyte : code[offset]? = some byte)
    (hi : Instruction.decodeAt code offset byte = .ok i) : Covers code i.next (is ++ [i]) := by
  obtain ⟨hstands, hfits⟩ := Instruction.standsAt_of_decodeAt hbyte hi
  have hlt := (Array.getElem?_eq_some_iff.1 hbyte).1
  have hoffset := Instruction.offset_of_decodeAt hi
  have hlength : (bytesOf (is.map Instruction.toLine)).length = offset := by
    rw [h.bytes, List.length_take, Array.length_toList]
    omega
  refine ⟨?_, ?_, ?_⟩
  · rw [List.map_append]
    refine h.consecutive.append ⟨?_, trivial⟩
    rw [hlength, Nat.zero_add]
    exact hoffset
  · intro j hj
    rcases List.mem_append.1 hj with hj | hj
    · exact h.fits j hj
    · cases List.mem_singleton.1 hj
      exact hfits
  · have hbytes : i.toLine.bytes = (code.toList.drop offset).take i.op.length := by
      rw [← show i.toLine.bytes.length = i.op.length from i.toLine.length_bytes]
      exact List.prefix_iff_eq_take.1 hstands
    rw [List.map_append, bytesOf, List.flatMap_append, ← bytesOf, h.bytes, Instruction.next, hoffset, List.take_add]
    simpa using hbytes

theorem covers_walkFrom {read : Array Instruction} (hread : Covers code offset read.toList)
    (hwhole : (walkFrom code offset read).fault = none) :
    Covers code code.size (walkFrom code offset read).instructions.toList := by
  induction offset, read using walkFrom.induct code with
  | case1 offset read hlt fault hfault =>
    rw [walkFrom, dif_pos hlt] at hwhole
    split at hwhole
    · cases hwhole
    · next i hi => cases hfault.symm.trans hi
  | case2 offset read hlt i hi ih =>
    have hnext : Covers code i.next (read.push i).toList := by
      rw [Array.toList_push]
      exact hread.concat (Array.getElem?_eq_getElem hlt) hi
    have hstep : walkFrom code offset read = walkFrom code i.next (read.push i) := by
      rw [walkFrom, dif_pos hlt]
      split
      · next fault hfault => cases hfault.symm.trans hi
      · next j hj =>
        cases hj.symm.trans hi
        rfl
    rw [hstep] at hwhole ⊢
    exact ih hnext hwhole
  | case3 offset read hge =>
    have hend : walkFrom code offset read = { instructions := read } := by rw [walkFrom, dif_neg hge]
    rw [hend]
    refine ⟨hread.consecutive, hread.fits, hread.bytes.trans ?_⟩
    have hsize : code.toList.length = code.size := Array.length_toList
    rw [List.take_of_length_le (by omega), List.take_of_length_le (by omega)]

/-- A code that can be read to its end is what its instructions are written as. -/
theorem covers_walk (hwhole : (walk code).fault = none) : Covers code code.size (walk code).instructions.toList :=
  covers_walkFrom ⟨trivial, fun _ hi => absurd hi List.not_mem_nil, rfl⟩ hwhole

theorem bytesOf_walk (hwhole : (walk code).fault = none) :
    bytesOf ((walk code).instructions.toList.map Instruction.toLine) = code.toList := by
  rw [(covers_walk hwhole).bytes, List.take_of_length_le (Nat.le_of_eq Array.length_toList)]

end ScriptEngine
