import ScriptEngine.Instruction
/-!
# Reading binary data

A cursor runs over bytes and never moves past their end: a read that does not fit fails and names
the bytes that it needed and the offset at which it stood. A block or text whose length was read
but whose bytes are missing leaves the cursor after the length.
-/

namespace ScriptEngine

structure Cursor where
  data : Array UInt8
  offset : Nat := 0
  deriving Repr, DecidableEq, Inhabited

def Cursor.remaining (c : Cursor) : Nat := c.data.size - c.offset

/-- Reading moves a cursor, also when it fails. -/
abbrev Reader := EStateM DataError Cursor

namespace Reader

def take (n : Nat) : Reader (Array UInt8) := fun c =>
  if c.remaining < n then .error (.endOfData n c.offset) c
  else .ok (c.data.extract c.offset (c.offset + n)) { c with offset := c.offset + n }

/-- A number in the next `width` bytes. -/
def number (width : Nat) : Reader Nat := do
  return ofBigEndian (← take width).toList

def u8 : Reader Nat := number 1

def u16 : Reader Nat := number 2

def u32 : Reader Nat := number 4

def u64 : Reader Nat := number 8

/-- A signed number in eight bytes, in two's complement. -/
def i64 : Reader Int64 := do
  return (← u64).toUInt64.toInt64

def f64 : Reader Float := do
  return Float.ofBits (← u64).toUInt64

/-- A block: its length, then its bytes. -/
def blob : Reader (Array UInt8) := do
  let n ← u32
  take n

def text : Reader String := do
  let bytes ← blob
  match String.fromUTF8? ⟨bytes⟩ with
  | some s => return s
  | none => throw .invalidUtf8

/-- As many items as asked for, after those already read. -/
def repeated (item : Reader α) : Nat → Array α → Reader (Array α)
  | 0, done => return done
  | n + 1, done => do
    let x ← item
    repeated item n (done.push x)

end Reader

end ScriptEngine
