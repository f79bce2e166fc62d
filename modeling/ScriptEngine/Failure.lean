import ScriptEngine.Operator
import ScriptEngine.Source
import ScriptEngine.Text.Pad
/-!
# Failures of a run

`Fault` is the cause of a failure, and `Fault.message` words it. A `Failure` is a cause together
with the places of the calls that were active, innermost first; the places are added as the failure
passes through them.
-/

namespace ScriptEngine

inductive Fault where
  | wrongArgumentCount (want : String) (got : Nat)
  | argumentType (name expected found : String)
  | unsupportedOperands (op : Operator) (lhs rhs : String)
  | unsupportedOperand (symbol operand : String)
  | divisionByZero
  | indexOutOfBounds
  | indexType (found : String)
  | elementType (found : String)
  /-- Only the value of an error can be read. -/
  | indexOnError
  | sliceBounds (low high : Int)
  | notIndexable (found : String)
  | notIndexAssignable (found : String)
  | notIterable (found : String)
  | notCallable (found : String)
  | rangeStep
  | invalidChar (code : Int)
  | timeOutOfRange
  | stringLimit
  | bytesLimit
  | arrayLimit
  | allocationLimit
  | stackOverflow
  | globalOutOfRange (slot : Nat)
  | invalidInstruction (byte : UInt8)
  | aborted
  | custom (text : String)
  deriving Repr, DecidableEq, Inhabited

def Fault.message : Fault → String
  | .wrongArgumentCount want got => s!"wrong number of arguments: want={want}, got={got}"
  | .argumentType name expected found =>
    s!"invalid type for argument '{name}': expected {expected}, found {found}"
  | .unsupportedOperands op lhs rhs => s!"invalid operation: {lhs} {op.symbol} {rhs}"
  | .unsupportedOperand symbol operand => s!"invalid operation: {symbol}{operand}"
  | .divisionByZero => "division by zero"
  | .indexOutOfBounds => "index out of bounds"
  | .indexType found => s!"invalid index type: {found}"
  | .elementType found => s!"invalid index value type: {found}"
  | .indexOnError => "invalid index on error"
  | .sliceBounds low high => s!"invalid slice index: {Text.integer low} > {Text.integer high}"
  | .notIndexable found => s!"not indexable: {found}"
  | .notIndexAssignable found => s!"not index-assignable: {found}"
  | .notIterable found => s!"not iterable: {found}"
  | .notCallable found => s!"not callable: {found}"
  | .rangeStep => "range step must be greater than 0"
  | .invalidChar code => s!"invalid char value: {Text.integer code}"
  | .timeOutOfRange => "time out of range"
  | .stringLimit => "exceeding string size limit"
  | .bytesLimit => "exceeding bytes size limit"
  | .arrayLimit => "exceeding array size limit"
  | .allocationLimit => "object allocation limit exceeded"
  | .stackOverflow => "stack overflow"
  | .globalOutOfRange slot => s!"global index out of range: {slot}"
  | .invalidInstruction byte => s!"invalid instruction 0x{Text.capitals (Text.hexByte byte)}"
  | .aborted => "execution aborted"
  | .custom text => text

/-- A cause, and once it has left a running function, the places of the active calls. -/
structure Failure where
  cause : Fault
  trace : Option (List Location) := none
  deriving Repr, DecidableEq, Inhabited

namespace Failure

/-- Adds the places of calls further out. -/
def addTrace (f : Failure) (places : List Location) : Failure :=
  { f with trace := some (f.trace.getD [] ++ places) }

def isAborted (f : Failure) : Bool := f.cause = .aborted

/-- The report of a failure: the cause alone, or with a line for each place. -/
def message (f : Failure) : String :=
  match f.trace with
  | none => f.cause.message
  | some places =>
    "Runtime Error: " ++ f.cause.message ++ String.join (places.map fun l => "\n\tat " ++ l.text)

end Failure

/-- The word for the place of an argument, counted from 0. -/
def ordinal (i : Nat) : String :=
  ["first", "second", "third", "fourth", "fifth", "sixth", "seventh", "eighth"].getD i "nth"

end ScriptEngine
