import ScriptEngine.Proofs.BigEndian
import ScriptEngine.Proofs.Code.Layout
/-!
# Reading laid-out code

A line of a layout is read back as the instruction it stands for, with operands cut to their widths.
So a walk through the bytes of a layout meets its lines, and an instruction fetched at the offset of
a line is that line.
-/

namespace ScriptEngine

variable {code : Array UInt8} {l : Line} {ls : List Line} {start : Nat}

/-! ### Operands -/

/-- Operands as they are read back: cut to their widths, 0 where one is missing. -/
def cutOperands : List Nat → List Nat → List Nat
  | [], _ => []
  | w :: ws, ns => ns.headD 0 % capacity w :: cutOperands ws ns.tail

/-- Every operand is there and fits into its width. -/
def OperandsFit : List Nat → List Nat → Prop
  | [], [] => True
  | w :: ws, n :: ns => n < capacity w ∧ OperandsFit ws ns
  | _, _ => False

theorem cutOperands_of_fit {ws ns : List Nat} (h : OperandsFit ws ns) : cutOperands ws ns = ns := by
  induction ws generalizing ns with
  | nil =>
    cases ns with
    | nil => rfl
    | cons n ns => exact h.elim
  | cons w ws ih =>
    cases ns with
    | nil => exact h.elim
    | cons n ns => rw [cutOperands, List.headD_cons, List.tail_cons, Nat.mod_eq_of_lt h.1, ih h.2]

/-- The bytes of a code that start at an offset. -/
def StandsAt (code : Array UInt8) (offset : Nat) (bytes : List UInt8) : Prop :=
  bytes <+: code.toList.drop offset

namespace StandsAt

variable {code : Array UInt8} {offset : Nat} {a b : List UInt8}

theorem left (h : StandsAt code offset (a ++ b)) : StandsAt code offset a :=
  (List.prefix_append a b).trans h

theorem right (h : StandsAt code offset (a ++ b)) : StandsAt code (offset + a.length) b := by
  obtain ⟨rest, hrest⟩ := h
  refine ⟨rest, ?_⟩
  rw [← List.drop_drop, ← hrest, List.append_assoc, List.drop_left]

theorem getD {x : UInt8} (h : StandsAt code offset (x :: b)) : code[offset]? = some x := by
  obtain ⟨rest, hrest⟩ := h
  have hget := congrArg (·[0]?) hrest
  simp only [List.cons_append, List.getElem?_cons_zero, List.getElem?_drop, Nat.add_zero] at hget
  rw [← Array.getElem?_toList]
  exact hget.symm

theorem length_le (h : StandsAt code offset a) (hne : a ≠ []) : offset + a.length ≤ code.size := by
  have hlen := List.IsPrefix.length_le h
  have hcode : code.toList.length = code.size := Array.length_toList
  rw [List.length_drop] at hlen
  have hpos := List.length_pos_iff.2 hne
  omega

end StandsAt

namespace Instruction

theorem numberAt_of_standsAt {offset : Nat} {bytes : List UInt8} (h : StandsAt code offset bytes) (high : Nat) :
    numberAt code offset bytes.length high = bytes.foldl (fun m b => m * 256 + b.toNat) high := by
  induction bytes generalizing offset high with
  | nil => rfl
  | cons x bytes ih =>
    have hx := h.getD
    rw [List.length_cons, numberAt, Array.getD_eq_getD_getElem?, hx]
    exact ih (StandsAt.right (a := [x]) h) _

theorem encodeOperands_cons (w : Nat) (ws ns : List Nat) :
    encodeOperands (w :: ws) ns = bigEndian w (ns.headD 0) ++ encodeOperands ws ns.tail := by
  cases ns <;> rfl

/-- Operands are written as they are read back. -/
theorem encodeOperands_cut (ws ns : List Nat) : encodeOperands ws (cutOperands ws ns) = encodeOperands ws ns := by
  induction ws generalizing ns with
  | nil => rfl
  | cons w ws ih => rw [cutOperands, encodeOperands, encodeOperands_cons, bigEndian_mod (Nat.le_refl w), ih]

theorem readOperands_of_standsAt {at_ : Nat} {ws ns : List Nat}
    (h : StandsAt code (start + at_) (encodeOperands ws ns)) (hpos : ∀ w ∈ ws, 0 < w) :
    readOperands code start at_ ws = .ok (cutOperands ws ns) := by
  induction ws generalizing ns at_ with
  | nil => rfl
  | cons w ws ih =>
    rw [encodeOperands_cons] at h
    have hlast := h.right
    rw [length_bigEndian, Nat.add_assoc] at hlast
    have hroom : start + at_ + w ≤ code.size := by
      have hne : bigEndian w (ns.headD 0) ≠ [] := by
        intro hnil
        have hlen := congrArg List.length hnil
        have := hpos w (List.mem_cons_self ..)
        rw [length_bigEndian, List.length_nil] at hlen
        omega
      have := h.left.length_le hne
      rwa [length_bigEndian] at this
    have hnumber : numberAt code (start + at_) w 0 = ns.headD 0 % capacity w := by
      have := numberAt_of_standsAt h.left 0
      rwa [length_bigEndian, foldl_bigEndian, Nat.zero_mul, Nat.zero_add] at this
    rw [readOperands, if_pos hroom, ih hlast fun w hw => hpos w (List.mem_cons_of_mem _ hw), hnumber]
    rfl

end Instruction

/-! ### Lines -/

/-- The instruction that a line is read back as. -/
def Line.instruction (l : Line) : Instruction := ⟨l.offset, l.op, cutOperands l.op.widths l.operands⟩

/-- A line is part of a code. -/
def Line.In (l : Line) (code : Array UInt8) : Prop := StandsAt code l.offset l.bytes

theorem Opcode.widths_pos (op : Opcode) : ∀ w ∈ op.widths, 0 < w := by
  cases op <;> decide

theorem Line.In.byte (h : l.In code) : code[l.offset]? = some l.op.byte :=
  StandsAt.getD h

theorem Line.In.decode (h : l.In code) : Instruction.decodeAt code l.offset l.op.byte = .ok l.instruction := by
  have hoperands : StandsAt code (l.offset + 1 + 0) (Instruction.encodeOperands l.op.widths l.operands) :=
    StandsAt.right (a := [l.op.byte]) h
  rw [Instruction.decodeAt, Opcode.ofByte?_byte]
  simp only [Instruction.readOperands_of_standsAt hoperands l.op.widths_pos]
  rfl

/-- Lines that follow each other from an offset on. -/
def Consecutive : Nat → List Line → Prop
  | _, [] => True
  | start, l :: rest => l.offset = start ∧ Consecutive (start + l.op.length) rest

theorem Consecutive.append {a b : List Line} (ha : Consecutive start a)
    (hb : Consecutive (start + (bytesOf a).length) b) : Consecutive start (a ++ b) := by
  induction a generalizing start with
  | nil => exact hb
  | cons l rest ih =>
    refine ⟨ha.1, ih ha.2 ?_⟩
    rw [bytesOf_cons, List.length_append, Line.length_bytes, ← Nat.add_assoc] at hb
    exact hb

/-- The instructions of a layout follow each other. -/
theorem Code.consecutive_lines (c : Code) (start stop next : Nat) : Consecutive start (c.lines start stop next) := by
  induction c generalizing start stop next with
  | nop => trivial
  | instr pos op operands => exact ⟨rfl, trivial⟩
  | seq a b iha ihb =>
    refine (iha start stop next).append ?_
    rw [length_bytesOf_lines]
    exact ihb _ stop next
  | skip pos branch body ih =>
    refine ⟨rfl, ?_⟩
    rw [Branch.length_op]
    exact ih _ stop next
  | choose pos yes no ihy ihn =>
    refine ⟨rfl, ?_⟩
    refine (ihy _ stop next).append ?_
    rw [length_bytesOf_lines]
    exact ⟨rfl, ihn _ stop next⟩
  | loop pos head tests body post ihh ihb ihp =>
    refine (ihh start stop next).append ?_
    rw [length_bytesOf_lines]
    have htests : Consecutive (start + head.size) (testLines pos (start + head.size)
        (start + head.size + testLength tests + body.size + post.size + jumpLength) tests) := by
      cases tests <;> simp [testLines, Consecutive]
    refine htests.append ?_
    rw [length_testLines]
    refine (ihb _ _ _).append ?_
    rw [length_bytesOf_lines]
    refine (ihp _ stop next).append ?_
    rw [length_bytesOf_lines]
    exact ⟨rfl, trivial⟩
  | leave pos isBreak => exact ⟨rfl, trivial⟩

theorem Consecutive.standsAt (h : Consecutive start ls)
    (hcode : StandsAt code start (bytesOf ls)) : ∀ l ∈ ls, l.In code := by
  induction ls generalizing start with
  | nil => exact fun l hl => absurd hl List.not_mem_nil
  | cons l rest ih =>
    intro l' hl'
    rcases List.mem_cons.1 hl' with rfl | hl'
    · rw [Line.In, h.1]
      exact hcode.left
    · refine ih h.2 ?_ l' hl'
      have := hcode.right
      rwa [Line.length_bytes] at this

/-- The lines of a layout are part of the code that is made of it. -/
theorem Code.in_lines (c : Code) (stop next : Nat) :
    ∀ l ∈ c.lines 0 stop next, l.In (bytesOf (c.lines 0 stop next)).toArray :=
  (c.consecutive_lines 0 stop next).standsAt (by simp [StandsAt])

/-! ### Lines that are read back unchanged -/

/-- Every operand of a line is there and fits. -/
def Line.Fits (l : Line) : Prop := OperandsFit l.op.widths l.operands

theorem Line.Fits.instruction (h : l.Fits) : l.instruction = ⟨l.offset, l.op, l.operands⟩ := by
  rw [Line.instruction, cutOperands_of_fit h]

/-- Every operand is there and fits, apart from the targets of jumps. -/
def Code.Fits (c : Code) : Prop := c.All fun op operands => OperandsFit op.widths operands

theorem Line.fits_jump {pos : Pos} {offset target : Nat} {op : Opcode} (hop : op.isJump = true)
    (h : target < capacity 4) : Line.Fits ⟨pos, offset, op, [target]⟩ := by
  cases op <;> first | exact ⟨h, trivial⟩ | cases hop

/-- The targets of jumps fit too if the code and the loop around it end soon enough. -/
theorem Code.fits_lines {c : Code} (h : c.Fits) {stop next : Nat} (hsize : start + c.size < capacity 4)
    (hstop : stop < capacity 4) (hnext : next < capacity 4) : ∀ l ∈ c.lines start stop next, l.Fits := by
  induction c generalizing start stop next with
  | nop => exact fun l hl => absurd hl List.not_mem_nil
  | instr pos op operands =>
    intro l hl
    obtain rfl := List.mem_singleton.1 hl
    exact h
  | seq a b iha ihb =>
    simp only [size] at hsize
    intro l hl
    rcases List.mem_append.1 hl with hl | hl
    · exact iha h.1 (by omega) hstop hnext l hl
    · exact ihb h.2 (by omega) hstop hnext l hl
  | skip pos branch body ih =>
    simp only [size] at hsize
    intro l hl
    rcases List.mem_cons.1 hl with rfl | hl
    · exact Line.fits_jump (by cases branch <;> rfl) (by omega)
    · exact ih h (by omega) hstop hnext l hl
  | choose pos yes no ihy ihn =>
    simp only [size] at hsize
    intro l hl
    rcases List.mem_cons.1 hl with rfl | hl
    · exact Line.fits_jump rfl (by omega)
    rcases List.mem_append.1 hl with hl | hl
    · exact ihy h.1 (by omega) hstop hnext l hl
    rcases List.mem_cons.1 hl with rfl | hl
    · exact Line.fits_jump rfl (by omega)
    · exact ihn h.2 (by omega) hstop hnext l hl
  | loop pos head tests body post ihh ihb ihp =>
    simp only [size] at hsize
    intro l hl
    rcases List.mem_append.1 hl with hl | hl
    · exact ihh h.1 (by omega) hstop hnext l hl
    rcases List.mem_append.1 hl with hl | hl
    · cases tests with
      | true =>
        obtain rfl := List.mem_singleton.1 hl
        exact Line.fits_jump rfl (by omega)
      | false => cases hl
    rcases List.mem_append.1 hl with hl | hl
    · exact ihb h.2.1 (by omega) (by omega) (by omega) l hl
    rcases List.mem_append.1 hl with hl | hl
    · exact ihp h.2.2 (by omega) hstop hnext l hl
    · obtain rfl := List.mem_singleton.1 hl
      exact Line.fits_jump rfl (by omega)
  | leave pos isBreak =>
    intro l hl
    obtain rfl := List.mem_singleton.1 hl
    refine Line.fits_jump rfl ?_
    cases isBreak
    · exact hnext
    · exact hstop

/-! ### Walks -/

theorem walkFrom_of_consecutive (read : Array Instruction)
    (h : Consecutive start ls) (hcode : code.toList.drop start = bytesOf ls) (hstart : start ≤ code.size) :
    walkFrom code start read = { instructions := read ++ (ls.map Line.instruction).toArray } := by
  induction ls generalizing start read with
  | nil =>
    have hend : ¬ start < code.size := by
      have hlen := congrArg List.length hcode
      have hcode : code.toList.length = code.size := Array.length_toList
      rw [List.length_drop, bytesOf_nil, List.length_nil] at hlen
      omega
    rw [walkFrom, dif_neg hend]
    simp
  | cons l rest ih =>
    have hall : StandsAt code start (bytesOf (l :: rest)) := by
      simp [StandsAt, hcode]
    have hl : l.In code := h.standsAt hall l (List.mem_cons_self ..)
    obtain ⟨rfl, hrest⟩ := h
    obtain ⟨hlt, hbyte⟩ := Array.getElem?_eq_some_iff.1 hl.byte
    have hroom : l.offset + l.op.length ≤ code.size := by
      have hle := hl.length_le (List.cons_ne_nil _ _)
      rwa [Line.length_bytes] at hle
    have hnext : code.toList.drop (l.offset + l.op.length) = bytesOf rest := by
      rw [← List.drop_drop, hcode, bytesOf_cons, ← Line.length_bytes, List.drop_left]
    rw [walkFrom, dif_pos hlt]
    split
    · next fault hfault =>
      rw [hbyte, hl.decode] at hfault
      cases hfault
    · next i hi =>
      rw [hbyte, hl.decode, Except.ok.injEq] at hi
      subst hi
      rw [show l.instruction.next = l.offset + l.op.length from rfl, ih _ hrest hnext hroom]
      simp

theorem walk_bytesOf (h : Consecutive 0 ls) :
    walk (bytesOf ls).toArray = { instructions := (ls.map Line.instruction).toArray } := by
  rw [walk, walkFrom_of_consecutive #[] h (by simp) (Nat.zero_le _)]
  simp

end ScriptEngine
