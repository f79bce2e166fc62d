import ScriptEngine.Program.Dedup
import ScriptEngine.Proofs.Code.Reading
/-!
# Code with other numbers of constants

Merging equal constants gives them new numbers and works on bytes: it walks through a code and writes
every instruction anew. On structured code this is `Code.renumber`, which changes operands only, so
that the renumbered bytes of a layout are the layout of the renumbered code (`code_bytesOf`).
-/

namespace ScriptEngine

open CompileM (maxWide)

variable {c : Code} {ls : List Line} {n : Nat} {op : Opcode} {r : Renumbering}

/-- The operands of an instruction with a new number for its constant. -/
def Opcode.renumber (ρ : Nat → Nat) (op : Opcode) (operands : List Nat) : List Nat :=
  if op.takesConstant then operands.modifyHead ρ else operands

/-- A line with a new number for its constant. -/
def Line.renumber (ρ : Nat → Nat) (l : Line) : Line := { l with operands := l.op.renumber ρ l.operands }

/-- Code with new numbers for its constants. -/
def Code.renumber (ρ : Nat → Nat) : Code → Code
  | nop => nop
  | instr pos op operands => instr pos op (op.renumber ρ operands)
  | seq a b => seq (a.renumber ρ) (b.renumber ρ)
  | skip pos branch body => skip pos branch (body.renumber ρ)
  | choose pos yes no => choose pos (yes.renumber ρ) (no.renumber ρ)
  | loop pos head tests body post =>
    loop pos (head.renumber ρ) tests (body.renumber ρ) (post.renumber ρ)
  | leave pos isBreak => leave pos isBreak

theorem Opcode.renumber_jump (ρ : Nat → Nat) (h : op.isJump = true) (operands : List Nat) :
    op.renumber ρ operands = operands := by
  cases op <;> first | rfl | cases h

theorem Branch.isJump_op (branch : Branch) : branch.op.isJump = true := by
  cases branch <;> rfl

namespace Code

variable {ρ : Nat → Nat}

@[simp]
theorem size_renumber (c : Code) : (c.renumber ρ).size = c.size := by
  induction c with
  | nop | instr | leave => rfl
  | seq a b iha ihb => simp only [renumber, size, iha, ihb]
  | skip pos branch body ih => simp only [renumber, size, ih]
  | choose pos yes no ihy ihn => simp only [renumber, size, ihy, ihn]
  | loop pos head tests body post ihh ihb ihp => simp only [renumber, size, ihh, ihb, ihp]

theorem map_renumber_testLines (pos : Pos) (offset out : Nat) (tests : Bool) :
    (testLines pos offset out tests).map (Line.renumber ρ) = testLines pos offset out tests := by
  cases tests <;> rfl

theorem renumber_line_jump (pos : Pos) (offset target : Nat) (h : op.isJump = true) :
    Line.renumber ρ ⟨pos, offset, op, [target]⟩ = ⟨pos, offset, op, [target]⟩ := by
  rw [Line.renumber, Opcode.renumber_jump ρ h]

/-- The layout of renumbered code. -/
theorem lines_renumber (c : Code) (start stop next : Nat) :
    (c.renumber ρ).lines start stop next = (c.lines start stop next).map (Line.renumber ρ) := by
  induction c generalizing start stop next with
  | nop | instr => rfl
  | seq a b iha ihb => simp only [renumber, lines, size_renumber, List.map_append, iha, ihb]
  | skip pos branch body ih =>
    simp only [renumber, lines, size_renumber, List.map_cons, ih, renumber_line_jump _ _ _ branch.isJump_op]
  | choose pos yes no ihy ihn =>
    simp only [renumber, lines, size_renumber, List.map_cons, List.map_append, ihy, ihn,
      renumber_line_jump pos _ _ (rfl : Opcode.jumpFalsy.isJump = true),
      renumber_line_jump pos _ _ (rfl : Opcode.jump.isJump = true)]
  | loop pos head tests body post ihh ihb ihp =>
    simp only [renumber, lines, size_renumber, List.map_append, List.map_cons, List.map_nil, ihh, ihb, ihp,
      map_renumber_testLines, renumber_line_jump pos _ _ (rfl : Opcode.jump.isJump = true)]
  | leave pos isBreak => rfl

theorem renumber_id (c : Code) : c.renumber id = c := by
  induction c with
  | nop | leave => rfl
  | instr pos op operands => simp [renumber, Opcode.renumber]
  | seq a b iha ihb => rw [renumber, iha, ihb]
  | skip pos branch body ih => rw [renumber, ih]
  | choose pos yes no ihy ihn => rw [renumber, ihy, ihn]
  | loop pos head tests body post ihh ihb ihp => rw [renumber, ihh, ihb, ihp]

theorem renumber_renumber (ρ' : Nat → Nat) (c : Code) : (c.renumber ρ).renumber ρ' = c.renumber (ρ' ∘ ρ) := by
  induction c with
  | nop | leave => rfl
  | instr pos op operands =>
    simp only [renumber, Opcode.renumber]
    split <;> cases operands <;> rfl
  | seq a b iha ihb => simp only [renumber, iha, ihb]
  | skip pos branch body ih => simp only [renumber, ih]
  | choose pos yes no ihy ihn => simp only [renumber, ihy, ihn]
  | loop pos head tests body post ihh ihb ihp => simp only [renumber, ihh, ihb, ihp]

theorem All.renumber {P Q : Opcode → List Nat → Prop} (h : c.All P)
    (himp : ∀ op operands, P op operands → Q op (op.renumber ρ operands)) : (c.renumber ρ).All Q := by
  induction c with
  | nop | leave => trivial
  | instr pos op operands => exact himp op operands h
  | seq a b iha ihb => exact ⟨iha h.1, ihb h.2⟩
  | skip pos branch body ih => exact ih h
  | choose pos yes no ihy ihn => exact ⟨ihy h.1, ihn h.2⟩
  | loop pos head tests body post ihh ihb ihp => exact ⟨ihh h.1, ihb h.2.1, ihp h.2.2⟩

/-- What holds of jumps and of all other instructions holds of every line. -/
theorem All.lines {P : Opcode → List Nat → Prop} (h : c.All P)
    (hjump : ∀ op target, op.isJump = true → P op [target]) (start stop next : Nat) :
    ∀ l ∈ c.lines start stop next, P l.op l.operands := by
  induction c generalizing start stop next with
  | nop => exact fun l hl => absurd hl List.not_mem_nil
  | instr pos op operands =>
    intro l hl
    obtain rfl := List.mem_singleton.1 hl
    exact h
  | seq a b iha ihb =>
    intro l hl
    rcases List.mem_append.1 hl with hl | hl
    · exact iha h.1 _ _ _ l hl
    · exact ihb h.2 _ _ _ l hl
  | skip pos branch body ih =>
    intro l hl
    rcases List.mem_cons.1 hl with rfl | hl
    · exact hjump _ _ branch.isJump_op
    · exact ih h _ _ _ l hl
  | choose pos yes no ihy ihn =>
    intro l hl
    rcases List.mem_cons.1 hl with rfl | hl
    · exact hjump _ _ rfl
    rcases List.mem_append.1 hl with hl | hl
    · exact ihy h.1 _ _ _ l hl
    rcases List.mem_cons.1 hl with rfl | hl
    · exact hjump _ _ rfl
    · exact ihn h.2 _ _ _ l hl
  | loop pos head tests body post ihh ihb ihp =>
    intro l hl
    rcases List.mem_append.1 hl with hl | hl
    · exact ihh h.1 _ _ _ l hl
    rcases List.mem_append.1 hl with hl | hl
    · cases tests with
      | true =>
        obtain rfl := List.mem_singleton.1 hl
        exact hjump _ _ rfl
      | false => cases hl
    rcases List.mem_append.1 hl with hl | hl
    · exact ihb h.2.1 _ _ _ l hl
    rcases List.mem_append.1 hl with hl | hl
    · exact ihp h.2.2 _ _ _ l hl
    · obtain rfl := List.mem_singleton.1 hl
      exact hjump _ _ rfl
  | leave pos isBreak =>
    intro l hl
    obtain rfl := List.mem_singleton.1 hl
    exact hjump _ _ rfl

end Code

/-! ### Renumbering bytes -/

/-- An instruction that takes a constant takes one of the first `n`, and its number fits. -/
def Opcode.Uses (n : Nat) (op : Opcode) (operands : List Nat) : Prop :=
  op.takesConstant = true → ∃ k rest, operands = k :: rest ∧ k < n ∧ k ≤ maxWide

theorem Opcode.Uses.mono {k : Nat} (hle : n ≤ k) {operands : List Nat}
    (h : op.Uses n operands) : op.Uses k operands := by
  intro hop
  obtain ⟨i, rest, heq, hi, hfits⟩ := h hop
  exact ⟨i, rest, heq, Nat.lt_of_lt_of_le hi hle, hfits⟩

theorem Opcode.uses_nothing {operands : List Nat} (h : op.takesConstant = false) :
    op.Uses n operands := fun htakes => absurd htakes (by simp [h])

theorem Opcode.uses_jump (n : Nat) (op : Opcode) (target : Nat) (h : op.isJump = true) : op.Uses n [target] := by
  intro hop
  cases op <;> simp_all [isJump, takesConstant]

/-- A line that stands earlier. -/
def Line.back (n : Nat) (l : Line) : Line := { l with offset := l.offset - n }

theorem bytesOf_back (n : Nat) (ls : List Line) : bytesOf (ls.map (Line.back n)) = bytesOf ls := by
  rw [bytesOf, List.flatMap_map]
  rfl

theorem Consecutive.back (h : Consecutive n ls) : Consecutive 0 (ls.map (Line.back n)) := by
  suffices hback : ∀ k, Consecutive (n + k) ls → Consecutive k (ls.map (Line.back n)) from hback 0 h
  clear h
  induction ls with
  | nil => exact fun _ _ => trivial
  | cons l rest ih =>
    intro k hk
    refine ⟨?_, ih _ (Nat.add_assoc _ _ _ ▸ hk.2)⟩
    show l.offset - n = k
    rw [hk.1, Nat.add_sub_cancel_left]

namespace Dedup

/-- The new number of a constant. -/
def Renumbering.number (r : Renumbering) (i : Nat) : Nat := r.assigned.getD i 0

theorem widths_of_takesConstant (hop : op.takesConstant = true) : op.widths = 2 :: op.widths.tail := by
  cases op <;> first | rfl | cases hop

theorem cutOperands_of_takesConstant (hop : op.takesConstant = true) {k : Nat}
    (hk : k ≤ maxWide) (rest : List Nat) :
    cutOperands op.widths (k :: rest) = k :: cutOperands op.widths.tail rest := by
  have hfits : k < capacity 2 := Nat.lt_succ_of_le hk
  rw [widths_of_takesConstant hop, cutOperands, List.headD_cons, Nat.mod_eq_of_lt hfits]
  rfl

/-- An instruction that is read back and renumbered is the line with the new number. -/
theorem Renumbering.instruction_line {l : Line} (h : l.op.Uses r.assigned.size l.operands) :
    ∃ i, r.instruction l.instruction = some i ∧
      Instruction.encode i.op i.operands = (l.renumber r.number).bytes := by
  obtain ⟨pos, offset, op, operands⟩ := l
  by_cases hop : op.takesConstant = true
  · obtain ⟨k, rest, rfl, hk, hfits⟩ := h hop
    have hcut := cutOperands_of_takesConstant hop hfits rest
    have hnew : r.assigned[k]? = some (r.number k) := by
      simp [Renumbering.number, hk]
    refine ⟨⟨offset, op, r.number k :: cutOperands op.widths.tail rest⟩, ?_, ?_⟩
    · simp only [Renumbering.instruction, Line.instruction, Instruction.first, hcut, hop, if_true,
        List.headD_cons, hnew, List.tail_cons]
    · simp only [Line.renumber, Line.bytes, Opcode.renumber, hop, if_true, List.modifyHead_cons]
      rw [Instruction.encode, Instruction.encode, widths_of_takesConstant hop]
      simp only [Instruction.encodeOperands, List.tail_cons, Instruction.encodeOperands_cut]
  · refine ⟨_, if_neg hop, ?_⟩
    simp only [Line.renumber, Line.bytes, Opcode.renumber, if_neg hop]
    rw [Line.instruction, Instruction.encode, Instruction.encodeOperands_cut, Instruction.encode]

theorem Renumbering.mapM_instruction (h : ∀ l ∈ ls, l.op.Uses r.assigned.size l.operands) :
    ∃ is, (ls.map Line.instruction).mapM r.instruction = some is ∧
      is.flatMap (fun i => Instruction.encode i.op i.operands) = bytesOf (ls.map (Line.renumber r.number)) := by
  induction ls with
  | nil => exact ⟨[], rfl, rfl⟩
  | cons l rest ih =>
    obtain ⟨i, hi, hbytes⟩ := instruction_line (h l (List.mem_cons_self ..))
    obtain ⟨is, his, hrest⟩ := ih fun l hl => h l (List.mem_cons_of_mem _ hl)
    refine ⟨i :: is, ?_, ?_⟩
    · simp [List.mapM_cons, hi, his]
    · rw [List.flatMap_cons, hbytes, hrest, List.map_cons, bytesOf_cons]

/-- The renumbered bytes of lines are the bytes of the renumbered lines, wherever they stand. -/
theorem Renumbering.code_lines {start : Nat} (hls : Consecutive start ls)
    (h : ∀ l ∈ ls, l.op.Uses r.assigned.size l.operands) :
    r.code (bytesOf ls).toArray = some (bytesOf (ls.map (Line.renumber r.number))) := by
  have hmoved : ∀ l ∈ ls.map (Line.back start), l.op.Uses r.assigned.size l.operands := by
    intro l hl
    obtain ⟨l', hl', rfl⟩ := List.mem_map.1 hl
    exact h l' hl'
  obtain ⟨is, his, hbytes⟩ := mapM_instruction hmoved
  have hwalk := walk_bytesOf (Consecutive.back hls)
  rw [bytesOf_back] at hwalk
  have hsame : (ls.map (Line.back start)).map (Line.renumber r.number) =
      (ls.map (Line.renumber r.number)).map (Line.back start) := by
    rw [List.map_map, List.map_map]
    rfl
  rw [hsame, bytesOf_back] at hbytes
  rw [Renumbering.code, hwalk]
  simp only [Option.isSome_none, Bool.false_eq_true, if_false, his, Option.map_some, hbytes]

/-- The renumbered bytes of a layout are the layout of the renumbered code. -/
theorem Renumbering.code_bytesOf (h : c.All (Opcode.Uses r.assigned.size)) (start : Nat) :
    r.code (bytesOf (c.lines start 0 0)).toArray = some (bytesOf ((c.renumber r.number).lines start 0 0)) := by
  rw [code_lines (c.consecutive_lines start 0 0) (h.lines (Opcode.uses_jump _) start 0 0), Code.lines_renumber]

end Dedup

end ScriptEngine
