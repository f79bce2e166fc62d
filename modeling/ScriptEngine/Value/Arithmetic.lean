import ScriptEngine.Heap
import ScriptEngine.Limits
/-!
# Operators on values

Integers are 64 bits wide and wrap around; a shift by less than 0 or more than 63 shifts every bit
out. An integer meets a float as a float. Characters are moved by integers as long as the result is
a character. Texts, bytes and arrays are joined, within the limits, which are checked before anything
is built. Instants are shifted by nanoseconds and subtracted.
-/

namespace ScriptEngine

namespace Arithmetic

/-- Compares by order; other operators have no result. -/
def compare? [LT α] [DecidableLT α] (op : Operator) (a b : α) : Option Bool :=
  match op with
  | .less => some (a < b)
  | .greater => some (b < a)
  | .lessEq => some (!decide (b < a))
  | .greaterEq => some (!decide (a < b))
  | _ => none

/-- Compares floats by order; nothing is ordered with what is not a number. -/
def compareFloats? (op : Operator) (a b : Float) : Option Bool :=
  match op with
  | .less => some (a < b)
  | .greater => some (b < a)
  | .lessEq => some (a ≤ b)
  | .greaterEq => some (b ≤ a)
  | _ => none

def compareInstants? (op : Operator) (a b : Instant) : Option Bool :=
  match op with
  | .less => some (a.before b)
  | .greater => some (b.before a)
  | .lessEq => some (!b.before a)
  | .greaterEq => some (!a.before b)
  | _ => none

/-- Whether an integer can be shifted by `n` bits. -/
def isShift (n : Int64) : Bool := 0 ≤ n && n < 64

def onInts (op : Operator) (a b : Int64) : Except Fault (Option Value) :=
  match op with
  | .add => .ok (some (.int (a + b)))
  | .sub => .ok (some (.int (a - b)))
  | .mul => .ok (some (.int (a * b)))
  | .quo => if b = 0 then .error .divisionByZero else .ok (some (.int (a / b)))
  | .rem => if b = 0 then .error .divisionByZero else .ok (some (.int (a % b)))
  | .and => .ok (some (.int (a &&& b)))
  | .or => .ok (some (.int (a ||| b)))
  | .xor => .ok (some (.int (a ^^^ b)))
  | .andNot => .ok (some (.int (a &&& ~~~b)))
  | .shl => .ok (some (.int (if isShift b then a <<< b else 0)))
  | .shr => .ok (some (.int (if isShift b then a >>> b else if a < 0 then -1 else 0)))
  | op => .ok ((compare? op a b).map .bool)

def onFloats (op : Operator) (a b : Float) : Option Value :=
  match op with
  | .add => some (.float (a + b))
  | .sub => some (.float (a - b))
  | .mul => some (.float (a * b))
  | .quo => some (.float (a / b))
  | op => (compareFloats? op a b).map .bool

/-- The character with a code, if there is one. -/
def charOf? (code : Int) : Option Char :=
  if 0 ≤ code ∧ code.toNat.isValidChar then some (Char.ofNat code.toNat) else none

def charOf (code : Int64) : Except Fault (Option Value) :=
  match charOf? code.toInt with
  | some c => .ok (some (.char c))
  | none => .error (.invalidChar code.toInt)

def onCodes (op : Operator) (a b : Int64) : Except Fault (Option Value) :=
  match op with
  | .add => charOf (a + b)
  | .sub => charOf (a - b)
  | op => .ok ((compare? op a b).map .bool)

def code (c : Char) : Int64 := c.toNat.toInt64

def onStrings (limits : Limits) (op : Operator) (a b : String) : Except Fault (Option Value) :=
  match op with
  | .add => do
    limits.checkString (a.utf8ByteSize + b.utf8ByteSize)
    return some (.string (a ++ b))
  | op => .ok ((compare? op a b).map .bool)

/-- An integer cut to 64 bits by taking the nearest. -/
def saturate (n : Int) : Int64 := Int64.ofInt (max Int64.minValue.toInt (min n Int64.maxValue.toInt))

def shifted (t : Instant) (ns : Int) : Except Fault (Option Value) :=
  (t.shift? ns).elim (.error .timeOutOfRange) fun u => .ok (some (.time u))

/-- Operators on values without shared content. -/
def onAtoms (limits : Limits) (op : Operator) (v w : Value) : Except Fault (Option Value) :=
  match v, w with
  | .int a, .int b => onInts op a b
  | .int a, .float b => .ok (onFloats op a.toFloat b)
  | .float a, .float b => .ok (onFloats op a b)
  | .float a, .int b => .ok (onFloats op a b.toFloat)
  | .int a, .char b => onCodes op a (code b)
  | .char a, .int b => onCodes op (code a) b
  | .char a, .char b => onCodes op (code a) (code b)
  | .string a, .string b => onStrings limits op a b
  | .string a, .char c => if op = .add then onStrings limits .add a (String.singleton c) else .ok none
  | .time t, .int n =>
    match op with
    | .add => shifted t n.toInt
    | .sub => shifted t (-n.toInt)
    | _ => .ok none
  | .time t, .time u =>
    match op with
    | .sub => .ok (some (.int (saturate (t.sub u))))
    | op => .ok ((compareInstants? op t u).map .bool)
  | _, _ => .ok none

/-- The address of an array, frozen or not. -/
def arrayAddr? : Value → Option Addr
  | .array a | .frozenArray a => some a
  | _ => none

end Arithmetic

namespace Value

open Arithmetic

/-- `v + w` for two bytes or two arrays: a new one with the content of both. -/
def join (limits : Limits) (v w : Value) : HeapM (Option Value) := do
  match v, w with
  | .bytes a, .bytes b =>
    let h ← get
    HeapM.ofExcept (limits.checkBytes ((h.buffer a).size + (h.buffer b).size))
    return some (← HeapM.bytes (h.buffer a ++ h.buffer b))
  | v, w =>
    match arrayAddr? v, arrayAddr? w with
    | some a, some b =>
      let h ← get
      HeapM.ofExcept (limits.checkArray ((h.array a).size + (h.array b).size))
      return some (← HeapM.array (h.array a ++ h.array b))
    | _, _ => return none

def binary (limits : Limits) (op : Operator) (v w : Value) : HeapM Value := do
  match ← HeapM.ofExcept (onAtoms limits op v w) with
  | some x => return x
  | none =>
    match ← (if op = .add then join limits v w else pure none) with
    | some x => return x
    | none => throw (.unsupportedOperands op v.typeName w.typeName)

def negate : Value → Except Fault Value
  | .int v => .ok (.int (-v))
  | .float v => .ok (.float (-v))
  | other => .error (.unsupportedOperand "-" other.typeName)

/-- `^v`, the bitwise complement. -/
def complement : Value → Except Fault Value
  | .int v => .ok (.int (~~~v))
  | other => .error (.unsupportedOperand "^" other.typeName)

end Value

end ScriptEngine
