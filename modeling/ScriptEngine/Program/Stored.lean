import ScriptEngine.Bytes.Checksum
import ScriptEngine.Program
/-!
# Stored programs

A stored program starts with a mark, the version of the format and the revision of the instruction
set. Sections follow, each a tag of four letters and a block. The end is a tag and the checksum of
everything before it.
-/

namespace ScriptEngine

namespace Stored

/-- The bytes that every stored program starts with. -/
def magic : List UInt8 := [0x53, 0x4B, 0x42, 0x43, 0x00]

def version : Nat := 1

def fileTag : List UInt8 := [0x46, 0x49, 0x4C, 0x45]

def mainTag : List UInt8 := [0x4D, 0x41, 0x49, 0x4E]

def constantsTag : List UInt8 := [0x43, 0x4E, 0x53, 0x54]

def checksumTag : List UInt8 := [0x43, 0x52, 0x43, 0x43]

/-- How deep constants may be nested in a stored program. -/
def maxDepth : Nat := 512

end Stored

inductive ValueTag where
  | undefined
  | int
  | float
  | char
  | bool
  | string
  | bytes
  | array
  | frozenArray
  | map
  | frozenMap
  | time
  | error
  | native
  | function
  | module
  deriving Repr, DecidableEq, Inhabited

namespace ValueTag

def all : Array ValueTag :=
  #[undefined, int, float, char, bool, string, bytes, array, frozenArray, map, frozenMap, time,
    error, native, function, module]

def code : ValueTag → Nat
  | undefined => 0
  | int => 1
  | float => 2
  | char => 3
  | bool => 4
  | string => 5
  | bytes => 6
  | array => 7
  | frozenArray => 8
  | map => 9
  | frozenMap => 10
  | time => 11
  | error => 12
  | native => 13
  | function => 14
  | module => 15

def ofCode? (code : Nat) : Option ValueTag := all[code]?

@[simp]
theorem ofCode?_code (t : ValueTag) : ofCode? t.code = some t := by
  cases t <;> rfl

end ValueTag

end ScriptEngine
