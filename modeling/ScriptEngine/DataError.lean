import ScriptEngine.Text.Pad
/-!
# Errors of binary data

Why bytes could not be read as numbers, text or instructions.
-/

namespace ScriptEngine

inductive DataError where
  /-- Fewer than `needed` bytes are left at offset `at_`. -/
  | endOfData (needed at_ : Nat)
  | unknownOpcode (byte : UInt8) (at_ : Nat)
  | unknownOperator (code : Nat)
  | invalidUtf8
  | corrupted (text : String)
  deriving Repr, DecidableEq, Inhabited

namespace DataError

def message : DataError → String
  | .endOfData needed at_ => s!"unexpected EOF: need {needed} bytes at {at_}"
  | .unknownOpcode byte at_ =>
    s!"unknown opcode 0x{Text.capitals (Text.hexByte byte)} at {at_}"
  | .unknownOperator code => s!"unknown operator code {code}"
  | .invalidUtf8 => "invalid utf-8"
  | .corrupted text => s!"corrupted: {text}"

end DataError

end ScriptEngine
