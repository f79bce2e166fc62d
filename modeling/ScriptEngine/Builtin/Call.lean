import ScriptEngine.Format
import ScriptEngine.Value.Access
import ScriptEngine.Value.Convert
import ScriptEngine.Value.Copy
/-!
# Calling builtin functions

What each builtin function does with its arguments: the number of arguments is checked first, then
each argument from left to right. A conversion that fails gives its second argument, or undefined.
-/

namespace ScriptEngine.Builtin

/-! ### Arguments -/

def exactly (n : Nat) (args : List Value) : Except Fault Unit :=
  if args.length = n then .ok () else .error (.wrongArgumentCount (Text.decimal n) args.length)

def between (low high : Nat) (args : List Value) : Except Fault Unit :=
  if low ≤ args.length ∧ args.length ≤ high then .ok ()
  else .error (.wrongArgumentCount s!"{low}..{high}" args.length)

def atLeast (n : Nat) (args : List Value) : Except Fault Unit :=
  if n ≤ args.length then .ok () else .error (.wrongArgumentCount s!">={n}" args.length)

/-- The argument at a place; undefined when it is missing. -/
def argument (args : List Value) (i : Nat) : Value := args.getD i .undefined

def unsuited (i : Nat) (expected : String) (found : Value) : Fault :=
  .argumentType (ordinal i) expected found.typeName

def intArgument (args : List Value) (i : Nat) : Except Fault Int64 :=
  match argument args i with
  | .int v => .ok v
  | other => .error (unsuited i "int" other)

def countArgument (args : List Value) (i : Nat) : Except Fault Nat := do
  let n ← intArgument args i
  if n < 0 then .error .indexOutOfBounds else .ok n.toInt.toNat

/-! ### Containers -/

def lengthOf (h : Heap) : Value → Except Fault Nat
  | .array a | .frozenArray a => .ok (h.array a).size
  | .string s => .ok s.length
  | .bytes a => .ok (h.buffer a).size
  | .map a | .frozenMap a => .ok (h.map a).size
  | other => .error (unsuited 0 "array/string/bytes/map" other)

/-- A new array: the items of the first argument, then the other arguments. -/
def appended (limits : Limits) (args : List Value) : HeapM Value := do
  match Arithmetic.arrayAddr? (argument args 0) with
  | none => throw (unsuited 0 "array" (argument args 0))
  | some a =>
    let items := (← get).array a
    HeapM.ofExcept (limits.checkArray (items.size + args.length - 1))
    HeapM.array (items ++ args.drop 1)

def deleted (args : List Value) : HeapM Value := do
  match argument args 0, argument args 1 with
  | .map a, .string key =>
    modify fun h => h.modifyMap a (·.erase key)
    return .undefined
  | .map _, other => throw (unsuited 1 "string" other)
  | other, _ => throw (unsuited 0 "map" other)

/-- The part of an array of `size` items that `splice` takes out. -/
def spliceRange (args : List Value) (size : Nat) : Except Fault (Nat × Nat) := do
  let start ← if 1 < args.length then countArgument args 1 else .ok 0
  if size < start then .error .indexOutOfBounds
  else
    let count ← if 2 < args.length then countArgument args 2 else .ok (size - start)
    return (start, min (start + count) size)

/-- Takes a part out of an array and puts the other arguments there; gives what was taken out. -/
def spliced (limits : Limits) (args : List Value) : HeapM Value := do
  match argument args 0 with
  | .array a =>
    let items := (← get).array a
    let (start, stop) ← HeapM.ofExcept (spliceRange args items.size)
    let inserted := args.drop 3
    HeapM.ofExcept (limits.checkArray (items.size - (stop - start) + inserted.length))
    modify fun h =>
      h.setArray a (items.extract 0 start ++ inserted ++ items.extract stop items.size)
    HeapM.array (items.extract start stop)
  | other => throw (unsuited 0 "array" other)

/-! ### Conversions -/

/-- The result of a conversion that fails. -/
def fallback (args : List Value) : Value := argument args 1

def stringOf (limits : Limits) (args : List Value) : HeapM Value := do
  match argument args 0 with
  | .string s => return .string s
  | .undefined => return fallback args
  | other => return .string (← HeapM.read fun h => other.plainTextWithin h limits.maxString)

/-- The first argument as bytes: zeros for an integer, UTF-8 for a text. -/
def bytesOf (limits : Limits) (args : List Value) : HeapM Value := do
  match argument args 0 with
  | .bytes a => return .bytes a
  | .int n =>
    if n < 0 then return fallback args
    else
      HeapM.ofExcept (limits.checkBytes n.toInt.toNat)
      HeapM.bytes (Array.replicate n.toInt.toNat 0)
  | .string s =>
    HeapM.ofExcept (limits.checkBytes s.utf8ByteSize)
    HeapM.bytes s.toUTF8.data
  | _ => return fallback args

/-! ### Formats and ranges -/

/-- The first argument as a format for the others; a format without arguments is the result. -/
def formatted (limits : Limits) (args : List Value) : HeapM Value := do
  match args with
  | [.string fmt] => return .string fmt
  | .string fmt :: rest => return .string (← HeapM.read fun h => Format.format h limits fmt rest)
  | args => throw (unsuited 0 "string" (argument args 0))

/-- How many steps lead from `start` to `stop` or past it. -/
def rangeCount (start stop step : Int) : Nat :=
  ((stop - start).natAbs + step.toNat - 1) / step.toNat

/-- The integer, unless it has more than 64 bits. -/
def narrow (n : Int) : Option Int64 :=
  if Int64.minValue.toInt ≤ n ∧ n ≤ Int64.maxValue.toInt then some (Int64.ofInt n) else none

theorem toInt_of_narrow {n : Int} {i : Int64} (h : narrow n = some i) : i.toInt = n := by
  rw [narrow, Int64.toInt_minValue, Int64.toInt_maxValue] at h
  split at h
  · cases h
    exact Int64.toInt_ofInt_of_le (by omega) (by omega)
  · cases h

/-- How far it is from `i` to `stop` in the direction of a step. -/
def ahead (step : Int) (i stop : Int64) : Nat :=
  (if 0 < step then stop.toInt - i.toInt else i.toInt - stop.toInt).toNat

theorem ahead_next {step : Int} {i next : Int64} (h : narrow (i.toInt + step) = some next) (stop : Int64) :
    ahead step next stop = ahead step i stop - step.natAbs := by
  rw [ahead, ahead, toInt_of_narrow h]
  split <;> omega

/-- Adds the integers from `i` on, in steps, as long as `stop` is ahead. The walk also ends where the next
integer would have more than 64 bits. -/
def walk (step : { n : Int // n ≠ 0 }) (stop i : Int64) (items : Array Int64) : Array Int64 :=
  if 0 < ahead step i stop then
    match _h : narrow (i.toInt + step) with
    | some next => walk step stop next (items.push i)
    | none => items.push i
  else items
termination_by ahead step i stop
decreasing_by
  have := step.property
  rw [ahead_next _h]
  omega

/-- The step towards `stop`. -/
def stride (start stop : Int64) {step : Int64} (h : ¬ step ≤ 0) : { n : Int // n ≠ 0 } :=
  ⟨if start ≤ stop then step.toInt else -step.toInt, by
    rw [Int64.le_iff_toInt_le, Int64.toInt_zero] at h
    split <;> omega⟩

/-- The integers from the first argument up or down to the second one, which is left out. -/
def ranged (limits : Limits) (args : List Value) : HeapM Value := do
  let start ← HeapM.ofExcept (intArgument args 0)
  let stop ← HeapM.ofExcept (intArgument args 1)
  let step ← HeapM.ofExcept (if args.length = 3 then intArgument args 2 else .ok 1)
  if hstep : step ≤ 0 then throw .rangeStep
  else
    HeapM.ofExcept (limits.checkArray (rangeCount start.toInt stop.toInt step.toInt))
    HeapM.array ((walk (stride start stop hstep) stop start #[]).map .int)

/-! ### All of them -/

def holds : Builtin → Value → Bool
  | .isInt, .int _ | .isFloat, .float _ | .isString, .string _ | .isBool, .bool _
  | .isChar, .char _ | .isBytes, .bytes _ | .isArray, .array _ | .isFrozenArray, .frozenArray _
  | .isMap, .map _ | .isFrozenMap, .frozenMap _ | .isTime, .time _ | .isError, .error _
  | .isUndefined, .undefined | .isFunction, .function _ => true
  | .isIterable, v => v.isIterable
  | .isCallable, v => v.isCallable
  | _, _ => false

def call (limits : Limits) (b : Builtin) (args : List Value) : HeapM Value := do
  match b with
  | .len =>
    HeapM.ofExcept (exactly 1 args)
    return .int (← HeapM.read fun h => lengthOf h (argument args 0)).toInt64
  | .copy =>
    HeapM.ofExcept (exactly 1 args)
    (argument args 0).copy
  | .append =>
    HeapM.ofExcept (atLeast 1 args)
    appended limits args
  | .delete =>
    HeapM.ofExcept (exactly 2 args)
    deleted args
  | .splice =>
    HeapM.ofExcept (atLeast 1 args)
    spliced limits args
  | .string =>
    HeapM.ofExcept (between 1 2 args)
    stringOf limits args
  | .int =>
    HeapM.ofExcept (between 1 2 args)
    return ((argument args 0).toInt?.map Value.int).getD (fallback args)
  | .bool =>
    HeapM.ofExcept (exactly 1 args)
    return .bool !(argument args 0).isFalsy (← get)
  | .float =>
    HeapM.ofExcept (between 1 2 args)
    return ((argument args 0).toFloat?.map Value.float).getD (fallback args)
  | .char =>
    HeapM.ofExcept (between 1 2 args)
    return ((argument args 0).toChar?.map Value.char).getD (fallback args)
  | .bytes =>
    HeapM.ofExcept (between 1 2 args)
    bytesOf limits args
  | .time =>
    HeapM.ofExcept (between 1 2 args)
    return ((argument args 0).toTime?.map Value.time).getD (fallback args)
  | .typeName =>
    HeapM.ofExcept (exactly 1 args)
    return .string (argument args 0).typeName
  | .format =>
    HeapM.ofExcept (atLeast 1 args)
    formatted limits args
  | .range =>
    HeapM.ofExcept (between 2 3 args)
    ranged limits args
  | predicate =>
    HeapM.ofExcept (exactly 1 args)
    return .bool (holds predicate (argument args 0))

end ScriptEngine.Builtin
