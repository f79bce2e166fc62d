/-!
# Binary operators

The operators that one instruction performs on two values. Equality has instructions of its own, and
the logical operators are jumps.
-/

namespace ScriptEngine

/-- A binary operator; the order of the constructors fixes the operator's code. -/
inductive Operator where
  | add
  | sub
  | mul
  | quo
  | rem
  | and
  | or
  | xor
  | shl
  | shr
  | andNot
  | less
  | greater
  | lessEq
  | greaterEq
  deriving Repr, DecidableEq, Inhabited

namespace Operator

def all : Array Operator :=
  #[.add, .sub, .mul, .quo, .rem, .and, .or, .xor, .shl, .shr, .andNot, .less, .greater, .lessEq, .greaterEq]

def code (op : Operator) : Nat := op.ctorIdx

def ofCode? (code : Nat) : Option Operator := all[code]?

def symbol : Operator → String
  | .add => "+"
  | .sub => "-"
  | .mul => "*"
  | .quo => "/"
  | .rem => "%"
  | .and => "&"
  | .or => "|"
  | .xor => "^"
  | .shl => "<<"
  | .shr => ">>"
  | .andNot => "&^"
  | .less => "<"
  | .greater => ">"
  | .lessEq => "<="
  | .greaterEq => ">="

/-- Whether the operator compares by order. -/
def isComparison : Operator → Bool
  | .less | .greater | .lessEq | .greaterEq => true
  | _ => false

@[simp]
theorem ofCode?_code (op : Operator) : ofCode? op.code = some op := by
  cases op <;> rfl

end Operator

end ScriptEngine
