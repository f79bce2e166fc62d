/-!
# Opcodes

The instruction set: one byte names the operation, and each operation has operands of fixed widths.
The table `Opcode.widths` is the only place that knows these widths; making, reading, listing and
executing instructions all go through it.
-/

namespace ScriptEngine

/-- An operation of the machine; the order of the constructors fixes the opcode's byte. -/
inductive Opcode where
  | const
  | pop
  | pushTrue
  | pushFalse
  | pushUndefined
  | equal
  | notEqual
  | negate
  | logicalNot
  | complement
  /-- A binary operator, named by its code. -/
  | binary
  /-- Pop a value and jump when it is falsy. -/
  | jumpFalsy
  /-- Jump and keep the top value when it is falsy, else drop it. -/
  | andJump
  /-- Jump and keep the top value when it is truthy, else drop it. -/
  | orJump
  | jump
  | array
  /-- A map of the top values, keys and values in turn. -/
  | map
  | error
  | freeze
  | index
  | slice
  /-- Call: number of arguments, and whether the last one is spread. -/
  | call
  /-- Return with one value or none. -/
  | ret
  | getGlobal
  | setGlobal
  /-- Assign through selectors of a global: slot, number of selectors. -/
  | setSelGlobal
  | getLocal
  | setLocal
  /-- First binding of a local, detached from any cell. -/
  | defineLocal
  | setSelLocal
  | getFree
  | setFree
  | captureFree
  | captureLocal
  | setSelFree
  | getBuiltin
  /-- A function over captured cells: constant, number of cells. -/
  | closure
  | iterInit
  | iterNext
  | iterKey
  | iterValue
  /-- End of the main program. -/
  | suspend
  deriving Repr, DecidableEq, Inhabited

namespace Opcode

def all : Array Opcode :=
  #[.const, .pop, .pushTrue, .pushFalse, .pushUndefined, .equal, .notEqual, .negate, .logicalNot,
    .complement, .binary, .jumpFalsy, .andJump, .orJump, .jump, .array, .map, .error, .freeze,
    .index, .slice, .call, .ret, .getGlobal, .setGlobal, .setSelGlobal, .getLocal, .setLocal,
    .defineLocal, .setSelLocal, .getFree, .setFree, .captureFree, .captureLocal, .setSelFree,
    .getBuiltin, .closure, .iterInit, .iterNext, .iterKey, .iterValue, .suspend]

/-- The revision of the instruction set: code of another revision cannot be loaded. -/
def revision : Nat := 1

def byte (op : Opcode) : UInt8 := op.ctorIdx.toUInt8

def ofByte? (b : UInt8) : Option Opcode := all[b.toNat]?

def mnemonic : Opcode → String
  | .const => "CONST"
  | .pop => "POP"
  | .pushTrue => "TRUE"
  | .pushFalse => "FALSE"
  | .pushUndefined => "NULL"
  | .equal => "EQL"
  | .notEqual => "NEQ"
  | .negate => "NEG"
  | .logicalNot => "NOT"
  | .complement => "BCOMPL"
  | .binary => "BINARYOP"
  | .jumpFalsy => "JMPF"
  | .andJump => "ANDJMP"
  | .orJump => "ORJMP"
  | .jump => "JMP"
  | .array => "ARR"
  | .map => "MAP"
  | .error => "ERROR"
  | .freeze => "IMMUT"
  | .index => "INDEX"
  | .slice => "SLICE"
  | .call => "CALL"
  | .ret => "RET"
  | .getGlobal => "GETG"
  | .setGlobal => "SETG"
  | .setSelGlobal => "SETSG"
  | .getLocal => "GETL"
  | .setLocal => "SETL"
  | .defineLocal => "DEFL"
  | .setSelLocal => "SETSL"
  | .getFree => "GETF"
  | .setFree => "SETF"
  | .captureFree => "GETFP"
  | .captureLocal => "GETLP"
  | .setSelFree => "SETSF"
  | .getBuiltin => "BUILTIN"
  | .closure => "CLOSURE"
  | .iterInit => "ITER"
  | .iterNext => "ITNXT"
  | .iterKey => "ITKEY"
  | .iterValue => "ITVAL"
  | .suspend => "SUSPEND"

def ofMnemonic? (name : String) : Option Opcode := all.find? (·.mnemonic == name)

def widths : Opcode → List Nat
  | .const | .array | .map | .getGlobal | .setGlobal => [2]
  | .jumpFalsy | .andJump | .orJump | .jump => [4]
  | .binary | .ret | .getLocal | .setLocal | .defineLocal | .getFree | .setFree | .captureFree
  | .captureLocal | .getBuiltin => [1]
  | .call | .setSelLocal | .setSelFree => [1, 1]
  | .setSelGlobal | .closure => [2, 1]
  | .pop | .pushTrue | .pushFalse | .pushUndefined | .equal | .notEqual | .negate | .logicalNot
  | .complement | .error | .freeze | .index | .slice | .iterInit | .iterNext | .iterKey
  | .iterValue | .suspend => []

def operandBytes (op : Opcode) : Nat := op.widths.foldl (· + ·) 0

/-- The length of an instruction, opcode included. -/
def length (op : Opcode) : Nat := 1 + op.operandBytes

/-- Whether the operand is the offset of an instruction. -/
def isJump : Opcode → Bool
  | .jumpFalsy | .andJump | .orJump | .jump => true
  | _ => false

@[simp]
theorem ofByte?_byte (op : Opcode) : ofByte? op.byte = some op := by
  cases op <;> rfl

theorem byte_injective {a b : Opcode} (h : a.byte = b.byte) : a = b := by
  have := congrArg ofByte? h
  simpa using this

end Opcode

end ScriptEngine
