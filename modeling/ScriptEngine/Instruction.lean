import ScriptEngine.DataError
import ScriptEngine.Opcode
import ScriptEngine.Text.Pad
/-!
# Instructions

An instruction is an opcode byte followed by its operands, big-endian. `encode` makes one,
`decodeAt` reads one, and `walk` reads a whole code: the instructions up to the first fault, and the
fault. A listing goes through a code on its own, and the machine reads instructions with `fetchAt`, which
tests only once whether there are enough bytes.
-/

namespace ScriptEngine

/-- The `width` low bytes of a number, the highest first. -/
def bigEndian : Nat → Nat → List UInt8
  | 0, _ => []
  | width + 1, n => (n >>> (8 * width)).toUInt8 :: bigEndian width n

/-- The number that bytes denote, the highest first. -/
def ofBigEndian (bytes : List UInt8) : Nat := bytes.foldl (fun n b => n * 256 + b.toNat) 0

@[simp]
theorem length_bigEndian (width n : Nat) : (bigEndian width n).length = width := by
  induction width with
  | zero => rfl
  | succ width ih => simp [bigEndian, ih]

/-- An instruction of a code: where it stands, what it does and its operands. -/
structure Instruction where
  offset : Nat
  op : Opcode
  operands : List Nat
  deriving Repr, DecidableEq, Inhabited

/-- Why no instruction can be read at an offset. -/
inductive CodeFault where
  | unknownOpcode (offset : Nat) (byte : UInt8)
  /-- The code ends in the operand that starts `at_` bytes after the opcode. -/
  | truncated (offset : Nat) (op : Opcode) (needed at_ : Nat)
  deriving Repr, DecidableEq, Inhabited

def CodeFault.toDataError : CodeFault → DataError
  | .unknownOpcode offset byte => .unknownOpcode byte offset
  | .truncated _ _ needed at_ => .endOfData needed at_

namespace Instruction

/-- The bytes of operands: cut to their widths, 0 where one is missing. -/
def encodeOperands : List Nat → List Nat → List UInt8
  | [], _ => []
  | w :: ws, [] => bigEndian w 0 ++ encodeOperands ws []
  | w :: ws, n :: ns => bigEndian w n ++ encodeOperands ws ns

def encode (op : Opcode) (operands : List Nat) : List UInt8 :=
  op.byte :: encodeOperands op.widths operands

/-- The number in the `width` bytes at `start`, after the digits `high`. -/
def numberAt (code : Array UInt8) : Nat → Nat → Nat → Nat
  | _, 0, high => high
  | start, width + 1, high => numberAt code (start + 1) width (high * 256 + (code.getD start 0).toNat)

/-- Reads operands of the given widths; `at_` counts from `start`. The error says how many bytes
are needed, and where. -/
def readOperands (code : Array UInt8) (start at_ : Nat) : List Nat → Except (Nat × Nat) (List Nat)
  | [] => .ok []
  | w :: ws =>
    if start + at_ + w ≤ code.size then
      match readOperands code start (at_ + w) ws with
      | .ok operands => .ok (numberAt code (start + at_) w 0 :: operands)
      | .error e => .error e
    else .error (w, at_)

/-- Reads the operands that follow an opcode, with the number of bytes read. -/
def operandsOf (op : Opcode) (bytes : Array UInt8) : Except DataError (List Nat × Nat) :=
  match readOperands bytes 0 0 op.widths with
  | .ok operands => .ok (operands, op.operandBytes)
  | .error (needed, at_) => .error (.endOfData needed at_)

/-- Reads the instruction that starts with a byte at an offset of the code. -/
def decodeAt (code : Array UInt8) (offset : Nat) (byte : UInt8) : Except CodeFault Instruction :=
  match Opcode.ofByte? byte with
  | none => .error (.unknownOpcode offset byte)
  | some op =>
    match readOperands code (offset + 1) 0 op.widths with
    | .ok operands => .ok { offset, op, operands }
    | .error (needed, at_) => .error (.truncated offset op needed at_)

/-- The number in one, two or four bytes at an offset, however long the code is. -/
def operandAt (code : Array UInt8) (start : Nat) : Nat → Nat
  | 1 => (code.getD start 0).toNat
  | 2 => (code.getD start 0).toNat <<< 8 ||| (code.getD (start + 1) 0).toNat
  | _ => numberAt code start 4 0

/-- Operands of the given widths that follow each other. -/
def operandsAt (code : Array UInt8) : Nat → List Nat → List Nat
  | _, [] => []
  | start, w :: ws => operandAt code start w :: operandsAt code (start + w) ws

/-- Reads the instruction that starts with a byte at an offset, if all of it is there. -/
def fetchAt (code : Array UInt8) (offset : Nat) (byte : UInt8) : Option Instruction := do
  let op ← Opcode.ofByte? byte
  if offset + op.length ≤ code.size then
    return { offset, op, operands := operandsAt code (offset + 1) op.widths }
  else none

theorem operandAt_eq (code : Array UInt8) (start : Nat) {w : Nat} (hw : w ∈ [1, 2, 4]) :
    operandAt code start w = numberAt code start w 0 := by
  have hlow := (code.getD (start + 1) 0).toNat_lt
  simp only [List.mem_cons, List.not_mem_nil, or_false] at hw
  rcases hw with rfl | rfl | rfl
  · simp [operandAt, numberAt]
  · simp only [operandAt, numberAt, Nat.zero_mul, Nat.zero_add]
    rw [← Nat.shiftLeft_add_eq_or_of_lt (by simpa using hlow), Nat.shiftLeft_eq]
  · rfl

theorem le_foldl_add (ws : List Nat) (n : Nat) : n ≤ ws.foldl (· + ·) n := by
  induction ws generalizing n with
  | nil => exact Nat.le_refl n
  | cons w ws ih => exact Nat.le_trans (Nat.le_add_right n w) (ih (n + w))

theorem readOperands_of_room {code : Array UInt8} {start : Nat} (at_ : Nat) {ws : List Nat}
    (hws : ∀ w ∈ ws, w ∈ [1, 2, 4]) (h : start + ws.foldl (· + ·) at_ ≤ code.size) :
    readOperands code start at_ ws = .ok (operandsAt code (start + at_) ws) := by
  induction ws generalizing at_ with
  | nil => rfl
  | cons w ws ih =>
    have hroom : start + at_ + w ≤ code.size := by
      have := le_foldl_add ws (at_ + w)
      rw [List.foldl_cons] at h
      omega
    rw [readOperands, if_pos hroom, ih (at_ + w) (fun v hv => hws v (.tail _ hv)) h, operandsAt,
      operandAt_eq _ _ (hws w (.head _)), Nat.add_assoc]

theorem readOperands_error {code : Array UInt8} {start : Nat} (at_ : Nat) {ws : List Nat}
    (hstart : start + at_ ≤ code.size) (h : code.size < start + ws.foldl (· + ·) at_) :
    ∃ e, readOperands code start at_ ws = .error e := by
  induction ws generalizing at_ with
  | nil => exact absurd hstart (Nat.not_le.2 h)
  | cons w ws ih =>
    rw [readOperands]
    split
    · next hroom =>
      obtain ⟨e, he⟩ := ih (at_ + w) (by omega) h
      exact ⟨e, by rw [he]⟩
    · exact ⟨_, rfl⟩

/-- The machine reads the instruction that can be decoded. -/
theorem fetchAt_eq {code : Array UInt8} {offset : Nat} (h : offset < code.size) (byte : UInt8) :
    fetchAt code offset byte = (decodeAt code offset byte).toOption := by
  rw [fetchAt, decodeAt]
  cases Opcode.ofByte? byte with
  | none => rfl
  | some op =>
    have hlength : offset + op.length = offset + 1 + op.widths.foldl (· + ·) 0 := by
      rw [Opcode.length, Opcode.operandBytes, Nat.add_assoc]
    simp only [Option.bind_eq_bind, Option.bind_some]
    by_cases hroom : offset + op.length ≤ code.size
    · rw [if_pos hroom, readOperands_of_room 0 (by cases op <;> decide) (hlength ▸ hroom)]
      rfl
    · obtain ⟨e, he⟩ : ∃ e, readOperands code (offset + 1) 0 op.widths = .error e :=
        readOperands_error 0 h (hlength ▸ Nat.not_le.1 hroom)
      rw [if_neg hroom, he]
      rfl

def next (i : Instruction) : Nat := i.offset + i.op.length

def first (i : Instruction) : Nat := i.operands.headD 0

def second (i : Instruction) : Nat := i.operands.tail.headD 0

/-- An offset in a listing, at least four digits wide. -/
def address (n : Nat) : String := Text.padLeft 4 '0' (Text.decimal n)

/-- The line of an instruction in a listing that starts at offset `origin`. -/
def line (origin : Nat) (i : Instruction) : String :=
  let place := address (origin + i.offset)
  match i.operands with
  | [] => s!"{place} {i.op.mnemonic}"
  | operands =>
    let columns := operands.map fun n => Text.padRight 5 (Text.decimal n)
    s!"{place} {Text.padRight 7 i.op.mnemonic} " ++ " ".intercalate columns

theorem offset_lt_next (i : Instruction) : i.offset < i.next := by
  unfold next Opcode.length
  omega

end Instruction

/-- The line that ends a listing at a fault. -/
def CodeFault.line (origin : Nat) : CodeFault → String
  | .unknownOpcode offset byte =>
    s!"{Instruction.address (origin + offset)} ??? 0x{Text.capitals (Text.hexByte byte)}"
  | .truncated offset op _ _ =>
    s!"{Instruction.address (origin + offset)} {Text.padRight 7 op.mnemonic} ???"

/-! ### Walking through code -/

/-- The instructions of a code up to its first fault, and the fault. -/
structure Walk where
  instructions : Array Instruction := #[]
  fault : Option CodeFault := none
  deriving Repr, DecidableEq, Inhabited

theorem Instruction.offset_of_decodeAt {code : Array UInt8} {offset : Nat} {byte : UInt8} {i : Instruction}
    (h : decodeAt code offset byte = .ok i) : i.offset = offset := by
  unfold decodeAt at h
  split at h
  · simp at h
  · split at h
    · cases h; rfl
    · simp at h

/-- Walks from an offset, after the instructions already read. -/
def walkFrom (code : Array UInt8) (offset : Nat) (read : Array Instruction) : Walk :=
  if h : offset < code.size then
    match hi : Instruction.decodeAt code offset code[offset] with
    | .error fault => { instructions := read, fault := some fault }
    | .ok i => walkFrom code i.next (read.push i)
  else { instructions := read }
termination_by code.size - offset
decreasing_by
  have := i.offset_lt_next
  rw [Instruction.offset_of_decodeAt hi] at this
  omega

def walk (code : Array UInt8) : Walk := walkFrom code 0 #[]

def listingFrom (code : Array UInt8) (origin offset : Nat) : List String :=
  if h : offset < code.size then
    match hi : Instruction.decodeAt code offset code[offset] with
    | .error fault => [fault.line origin]
    | .ok i => i.line origin :: listingFrom code origin i.next
  else []
termination_by code.size - offset
decreasing_by
  have := i.offset_lt_next
  rw [Instruction.offset_of_decodeAt hi] at this
  omega

/-- The listing of a code, one line for each instruction; offsets are shown from `origin` on. -/
def listing (code : Array UInt8) (origin : Nat) : List String := listingFrom code origin 0

end ScriptEngine
