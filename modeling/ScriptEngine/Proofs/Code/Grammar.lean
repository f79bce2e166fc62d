import ScriptEngine.Proofs.Code.Decoded
import ScriptEngine.Proofs.Machine.Lockstep
/-!
# One grammar of instructions

A code is walked through, listed and executed by readers of their own. `Spells` is the reverse of all of
them: the instructions of which a code consists. Main statement: every reader finds these instructions and
no others, and where one of them has to stop the others do (`one_grammar`).
-/

namespace ScriptEngine

open Instruction

variable {code : Array UInt8} {actions : List (Opcode × List Nat)}

/-- What an instruction does, wherever it stands. -/
def Instruction.action (i : Instruction) : Opcode × List Nat := (i.op, i.operands)

/-- A code consists of instructions in turn, whose operands are all there and fit into their widths. -/
structure Spells (actions : List (Opcode × List Nat)) (code : Array UInt8) : Prop where
  bytes : code.toList = actions.flatMap fun a => encode a.1 a.2
  fits : ∀ a ∈ actions, OperandsFit a.1.widths a.2

/-! ### Walks -/

/-- Instructions in turn from an offset on. -/
def placed : Nat → List (Opcode × List Nat) → List Line
  | _, [] => []
  | start, a :: rest => ⟨Pos.unknown, start, a.1, a.2⟩ :: placed (start + a.1.length) rest

theorem consecutive_placed (start : Nat) (actions : List (Opcode × List Nat)) :
    Consecutive start (placed start actions) := by
  induction actions generalizing start with
  | nil => trivial
  | cons a rest ih => exact ⟨rfl, ih _⟩

theorem bytesOf_placed (start : Nat) (actions : List (Opcode × List Nat)) :
    bytesOf (placed start actions) = actions.flatMap fun a => encode a.1 a.2 := by
  induction actions generalizing start with
  | nil => rfl
  | cons a rest ih => rw [placed, bytesOf_cons, ih, List.flatMap_cons, Line.bytes]

theorem action_placed (start : Nat) (h : ∀ a ∈ actions, OperandsFit a.1.widths a.2) :
    ((placed start actions).map Line.instruction).map action = actions := by
  induction actions generalizing start with
  | nil => rfl
  | cons a rest ih =>
    obtain ⟨ha, hrest⟩ := List.forall_mem_cons.1 h
    have hline : Line.Fits ⟨Pos.unknown, start, a.1, a.2⟩ := ha
    rw [placed, List.map_cons, List.map_cons, ih _ hrest, hline.instruction, action]

/-- A walk goes to the end of a code that consists of instructions, and finds them. -/
theorem Spells.walk_eq (h : Spells actions code) :
    walk code = { instructions := ((placed 0 actions).map Line.instruction).toArray } := by
  have hcode : code = (bytesOf (placed 0 actions)).toArray := by
    rw [bytesOf_placed, ← h.bytes]
  rw [hcode, walk_bytesOf (consecutive_placed 0 actions)]

theorem spells_walk (hwhole : (walk code).fault = none) : Spells ((walk code).instructions.toList.map action) code where
  bytes := by
    rw [← bytesOf_walk hwhole, bytesOf, List.flatMap_map, List.flatMap_map]
    rfl
  fits := by
    intro a ha
    obtain ⟨i, hi, rfl⟩ := List.mem_map.1 ha
    exact (covers_walk hwhole).fits i hi

/-- Instructions that follow each other stand where the lengths of those before them add up to. -/
theorem Consecutive.offset_eq {is : List Instruction} {start k : Nat} {i : Instruction}
    (h : Consecutive start (is.map toLine)) (hi : is[k]? = some i) :
    i.offset = start + ((is.take k).map (·.op.length)).sum := by
  induction is generalizing start k with
  | nil => cases hi
  | cons j rest ih =>
    cases k with
    | zero =>
      cases hi
      exact h.1
    | succ k =>
      rw [List.take_succ_cons, List.map_cons, List.sum_cons, ← Nat.add_assoc]
      exact ih h.2 hi

/-- The offset at which no instruction can be read. -/
def CodeFault.offset : CodeFault → Nat
  | .unknownOpcode offset _ | .truncated offset _ _ _ => offset

theorem offset_of_fault {offset : Nat} {byte : UInt8} {fault : CodeFault}
    (h : decodeAt code offset byte = .error fault) : fault.offset = offset := by
  unfold decodeAt at h
  split at h
  · cases h
    rfl
  · split at h
    · cases h
    · cases h
      rfl

/-- What is read at an offset of a code. -/
def ReadsAs (code : Array UInt8) (offset : Nat) (r : Except CodeFault Instruction) : Prop :=
  ∃ byte, code[offset]? = some byte ∧ decodeAt code offset byte = r

/-- A walk reports what can be read where it passes, and a listing has a line for all that it reports. -/
theorem walkFrom_spec (code : Array UInt8) (offset : Nat) (read : Array Instruction)
    (hread : ∀ i ∈ read, ReadsAs code i.offset (.ok i)) :
    (∀ i ∈ (walkFrom code offset read).instructions, ReadsAs code i.offset (.ok i)) ∧
      (∀ fault ∈ (walkFrom code offset read).fault, ReadsAs code fault.offset (.error fault)) ∧
      ∀ origin, read.toList.map (line origin) ++ listingFrom code origin offset =
        (walkFrom code offset read).instructions.toList.map (line origin) ++
          ((walkFrom code offset read).fault.map (CodeFault.line origin)).toList := by
  induction offset, read using walkFrom.induct code with
  | case1 offset read hlt fault hfault =>
    have hend : walkFrom code offset read = { instructions := read, fault := some fault } := by
      rw [walkFrom, dif_pos hlt]
      split <;> simp_all
    rw [hend]
    refine ⟨hread, ?_, fun origin => ?_⟩
    · rintro _ ⟨⟩
      obtain rfl := offset_of_fault hfault
      exact ⟨_, Array.getElem?_eq_getElem hlt, hfault⟩
    · rw [listingFrom, dif_pos hlt]
      split <;> simp_all
  | case2 offset read hlt i hi ih =>
    have hstep : walkFrom code offset read = walkFrom code i.next (read.push i) := by
      rw [walkFrom, dif_pos hlt]
      split <;> simp_all
    have hline : ∀ origin, listingFrom code origin offset = i.line origin :: listingFrom code origin i.next := by
      intro origin
      rw [listingFrom, dif_pos hlt]
      split <;> simp_all
    rw [hstep]
    obtain ⟨hall, hfault, hlist⟩ := ih fun j hj => by
      rcases Array.mem_push.1 hj with hj | rfl
      · exact hread j hj
      · obtain rfl := offset_of_decodeAt hi
        exact ⟨_, Array.getElem?_eq_getElem hlt, hi⟩
    refine ⟨hall, hfault, fun origin => ?_⟩
    rw [← hlist, hline, Array.toList_push, List.map_append, List.append_assoc]
    rfl
  | case3 offset read hge =>
    have hend : walkFrom code offset read = { instructions := read } := by rw [walkFrom, dif_neg hge]
    rw [hend]
    refine ⟨hread, fun fault hfault => (Option.not_mem_none fault hfault).elim, fun origin => ?_⟩
    rw [listingFrom, dif_neg hge]
    rfl

/-! ### Texts -/

theorem not_mem_repeated {c d : Char} (h : c ≠ d) (n : Nat) : c ∉ (Text.repeated d n).toList := by
  rw [Text.repeated, String.toList_ofList]
  exact fun hmem => h (List.eq_of_mem_replicate hmem)

theorem not_mem_decimal (n : Nat) : '?' ∉ (Text.decimal n).toList := by
  rw [Text.decimal, Text.numeral, String.toList_ofList]
  intro hmem
  have hdigit := Nat.isDigit_of_mem_toDigits (by decide) (by decide) hmem
  revert hdigit
  decide

theorem not_mem_padRight {s : String} (h : '?' ∉ s.toList) (width : Nat) : '?' ∉ (Text.padRight width s).toList := by
  rw [Text.padRight, String.toList_append, List.mem_append, not_or]
  exact ⟨h, not_mem_repeated (by decide) _⟩

/-- The line of an instruction has no question mark. -/
theorem not_mem_line (origin : Nat) (i : Instruction) : '?' ∉ (i.line origin).toList := by
  have haddress : '?' ∉ (address (origin + i.offset)).toList := by
    rw [address, Text.padLeft, String.toList_append, List.mem_append, not_or]
    exact ⟨not_mem_repeated (by decide) _, not_mem_decimal _⟩
  have hname : '?' ∉ i.op.mnemonic.toList := by cases i.op <;> decide
  have hcolumns : '?' ∉ (" ".intercalate (i.operands.map fun n => Text.padRight 5 (Text.decimal n))).toList := by
    induction i.operands with
    | nil => decide
    | cons n rest ih =>
      cases rest with
      | nil => exact not_mem_padRight (not_mem_decimal n) 5
      | cons k rest =>
        rw [List.map_cons, List.map_cons, String.intercalate_cons_cons]
        simp only [String.toList_append, List.mem_append, not_or]
        exact ⟨⟨not_mem_padRight (not_mem_decimal n) 5, by decide⟩, ih⟩
  rw [line]
  split <;> simp only [String.toList_append, List.mem_append, not_or]
  · exact ⟨⟨haddress, by decide⟩, hname⟩
  · exact ⟨⟨⟨⟨haddress, by decide⟩, not_mem_padRight hname 7⟩, by decide⟩, hcolumns⟩

/-- The line of a fault names its offset and has three question marks. -/
theorem line_of_fault (origin : Nat) (fault : CodeFault) :
    (address (origin + fault.offset)).toList <+: (fault.line origin).toList ∧
      "???".toList <:+: (fault.line origin).toList := by
  cases fault with
  | unknownOpcode offset byte =>
    have hmark : "???".toList <:+: " ??? 0x".toList := ⟨[' '], " 0x".toList, by decide⟩
    simp only [CodeFault.line, String.toList_append, List.append_assoc]
    exact ⟨List.prefix_append _ _, hmark.trans (List.infix_append' _ _ _)⟩
  | truncated offset op needed at_ =>
    have hmark : "???".toList <:+: " ???".toList := ⟨[' '], [], by decide⟩
    simp only [CodeFault.line, String.toList_append]
    refine ⟨?_, hmark.trans (List.suffix_append _ _).isInfix⟩
    simp only [List.append_assoc]
    exact List.prefix_append _ _

/-! ### All readers -/

/-- All that read a code find the same instructions in it, and stop at the same fault. -/
structure ReadAlike (code : Array UInt8) : Prop where
  /-- A walk gets to the end just of what consists of instructions, and has met these. -/
  visits : ∀ actions, (walk code).fault = none ∧ (walk code).instructions.toList.map action = actions ↔
    Spells actions code
  unique : ∀ actions actions', Spells actions code → Spells actions' code → actions = actions'
  offsets : (walk code).fault = none → ∀ k i, (walk code).instructions[k]? = some i →
    i.offset = (((walk code).instructions.toList.take k).map (·.op.length)).sum
  /-- The machine fetches the instructions that a walk meets, and goes on behind them. -/
  fetches : ∀ i ∈ (walk code).instructions, ∀ m f rest, m.frames = f :: rest → f.func.code = code →
    f.next = i.offset →
      Exec.fetch m = .ok i { m with frames := { f with current := i.offset, next := i.next } :: rest }
  /-- A listing has one line for each of them, without a mark. -/
  lists : ∀ origin, (walk code).fault = none →
    listing code origin = (walk code).instructions.toList.map (line origin) ∧
      ∀ text ∈ listing code origin, '?' ∉ text.toList
  /-- A listing ends in a marked line for the offset at which a walk fails. -/
  marks : ∀ origin, ∀ fault ∈ (walk code).fault, ∃ text,
    listing code origin = (walk code).instructions.toList.map (line origin) ++ [text] ∧
      (address (origin + fault.offset)).toList <+: text.toList ∧ "???".toList <:+: text.toList
  /-- There the machine fails too. -/
  stops : ∀ fault ∈ (walk code).fault, ∀ m f rest, m.frames = f :: rest → f.func.code = code →
    f.next = fault.offset → ∃ byte, code[fault.offset]? = some byte ∧
      Exec.fetch m = .error (.failure { cause := .invalidInstruction byte }) m

theorem one_grammar (code : Array UInt8) : ReadAlike code := by
  have hvisits : ∀ actions, (walk code).fault = none ∧ (walk code).instructions.toList.map action = actions ↔
      Spells actions code := by
    intro actions
    constructor
    · rintro ⟨hwhole, rfl⟩
      exact spells_walk hwhole
    · intro h
      rw [h.walk_eq]
      exact ⟨rfl, action_placed 0 h.fits⟩
  obtain ⟨hread, hfault, hlist⟩ := walkFrom_spec code 0 #[] (by simp)
  exact {
    visits := hvisits
    unique := fun actions actions' h h' => ((hvisits actions).2 h).2.symm.trans ((hvisits actions').2 h').2
    offsets := fun hwhole k i hi => by
      have hi : (walk code).instructions.toList[k]? = some i := by rwa [Array.getElem?_toList]
      rw [(covers_walk hwhole).consecutive.offset_eq hi, Nat.zero_add]
    fetches := fun i hi m f rest hframes hcode hnext => by
      obtain ⟨byte, hbyte, hdecode⟩ := hread i hi
      rw [Exec.fetch_eq hframes, Function.instructionAt, hcode, hnext, hbyte]
      dsimp only
      rw [hdecode]
    lists := fun origin hwhole => by
      have hlines : listing code origin = (walk code).instructions.toList.map (line origin) := by
        have := hlist origin
        rwa [← walk, hwhole, Option.map_none, Option.toList_none, List.append_nil] at this
      refine ⟨hlines, fun text htext => ?_⟩
      obtain ⟨i, -, rfl⟩ := List.mem_map.1 (hlines ▸ htext)
      exact not_mem_line origin i
    marks := fun origin fault hf => by
      refine ⟨fault.line origin, ?_, line_of_fault origin fault⟩
      have := hlist origin
      rwa [← walk, Option.mem_def.1 hf] at this
    stops := fun fault hf m f rest hframes hcode hnext => by
      obtain ⟨byte, hbyte, hdecode⟩ := hfault fault hf
      refine ⟨byte, hbyte, ?_⟩
      rw [Exec.fetch_eq hframes, Function.instructionAt, hcode, hnext, hbyte]
      dsimp only
      rw [hdecode] }

end ScriptEngine
