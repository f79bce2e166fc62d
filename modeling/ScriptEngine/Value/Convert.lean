import ScriptEngine.Decimal.Reading
import ScriptEngine.Heap
import ScriptEngine.Text.Blank
import ScriptEngine.Value.Arithmetic
/-!
# Conversions

Values as integers, floats, characters and instants, where that makes sense. A text is read after
its blanks at both ends are dropped.
-/

namespace ScriptEngine.Value

/-- As an integer. A float is cut toward zero and to the range of integers. -/
def toInt? : Value → Option Int64
  | .int v => some v
  | .float v => some v.toInt64
  | .char c => some c.toNat.toInt64
  | .bool b => some (if b then 1 else 0)
  | .string s => Decimal.readInt64? (Text.trim s.toList)
  | _ => none

def toFloat? : Value → Option Float
  | .int v => some v.toFloat
  | .float v => some v
  | .string s => Decimal.readFloat? (Text.trim s.toList)
  | _ => none

/-- As a character: the code of one, or a text with nothing else. -/
def toChar? : Value → Option Char
  | .char c => some c
  | .int v => Arithmetic.charOf? v.toInt
  | .string s =>
    match s.toList with
    | [c] => some c
    | _ => none
  | _ => none

/-- As an instant: an integer counts seconds. -/
def toTime? : Value → Option Instant
  | .time t => some t
  | .int v => Instant.ofUnix? v.toInt 0
  | _ => none

end ScriptEngine.Value
