import ScriptEngine.Value.Equality
import ScriptEngine.Value.Render
import ScriptEngine.Instruction
/-!
# Programs

A compiled program: the main function, the constants that instructions refer to by number, and the
source files that positions point into. Constants live in the heap like all values.
-/

namespace ScriptEngine

structure Program where
  files : FileSet := {}
  main : Function := {}
  constants : Array Value := #[]
  deriving Inhabited

inductive ProgramError where
  | badMagic
  | unsupportedVersion (version : Nat)
  | opcodeRevision (found : Nat)
  | checksumMismatch (stored computed : UInt32)
  | missingSection (name : String)
  | unknownTag (tag : Nat)
  | unknownNative (name : String)
  | constantOutOfRange (index size : Nat)
  | unencodable (type : String)
  | data (e : DataError)
  deriving Repr, DecidableEq, Inhabited

def ProgramError.message : ProgramError → String
  | .badMagic => "invalid bytecode magic"
  | .unsupportedVersion version => s!"unsupported bytecode format version {version}"
  | .opcodeRevision found =>
    s!"opcode revision mismatch: file has {found}, engine expects {Opcode.revision}"
  | .checksumMismatch stored computed =>
    "CRC32 mismatch: stored " ++ Text.hex (bigEndian 4 stored.toNat) ++ ", computed " ++
      Text.hex (bigEndian 4 computed.toNat)
  | .missingSection name => s!"missing section {name}"
  | .unknownTag tag => s!"unknown object tag {tag}"
  | .unknownNative name => s!"unknown builtin function '{name}'"
  | .constantOutOfRange index size => s!"constant index {index} out of range (pool size {size})"
  | .unencodable type => s!"cannot encode object of type {type}"
  | .data e => e.message

/-- Whether the first operand of an instruction is the number of a constant. -/
def Opcode.takesConstant : Opcode → Bool
  | .const | .closure => true
  | _ => false

namespace Program

def functions (p : Program) : List Function :=
  p.constants.toList.filterMap fun
    | .function f => some f
    | _ => none

/-! ### Validation -/

/-- Checks that an instruction refers to a constant or builtin that exists. -/
def checkInstruction (constants : Nat) (i : Instruction) : Except ProgramError Unit :=
  if i.op.takesConstant && constants ≤ i.first then .error (.constantOutOfRange i.first constants)
  else if i.op == .getBuiltin && Builtin.all.size ≤ i.first then
    .error (.data (.corrupted s!"builtin index {i.first} out of range"))
  else .ok ()

def checkInstructions (constants : Nat) : List Instruction → Except ProgramError Unit
  | [] => .ok ()
  | i :: rest => do
    checkInstruction constants i
    checkInstructions constants rest

/-- Checks a code: its instructions up to the first that cannot be read, then that one. -/
def checkCode (constants : Nat) (code : Array UInt8) : Except ProgramError Unit := do
  let w := walk code
  checkInstructions constants w.instructions.toList
  match w.fault with
  | some fault => .error (.data fault.toDataError)
  | none => .ok ()

def checkCodes (constants : Nat) : List (Array UInt8) → Except ProgramError Unit
  | [] => .ok ()
  | code :: rest => do
    checkCode constants code
    checkCodes constants rest

/-- Checks the code of the main function and of every constant that is a function. -/
def validate (p : Program) : Except ProgramError Unit :=
  checkCodes p.constants.size (p.main.code :: p.functions.map (·.code))

/-! ### Counting -/

/-- How many values a value consists of; the fuel bounds the nesting of containers. -/
def countIn (h : Heap) : Nat → Value → Nat
  | fuel, v =>
    let (errors, core) := v.unwrap
    let parts :=
      match fuel, core with
      | fuel + 1, .array a | fuel + 1, .frozenArray a =>
        (h.array a).foldl (fun n x => n + countIn h fuel x) 0
      | fuel + 1, .map a | fuel + 1, .frozenMap a =>
        (h.map a).values.foldl (fun n x => n + countIn h fuel x) 0
      | _, _ => 0
    errors + 1 + parts

/-- How many values the constants consist of, and one for the main function. -/
def count (p : Program) (h : Heap) : Nat :=
  p.constants.foldl (fun n c => n + countIn h h.depth c) 1

/-! ### Listings -/

/-- The lines that describe one constant: a function is listed with its code. -/
def constantLines (h : Heap) (index : Nat) (c : Value) : List String :=
  let number := "[" ++ Text.padLeft 3 ' ' (Text.decimal index) ++ "] "
  match c with
  | .function f =>
    (number ++ s!"(compiled-function|params={f.parameters}|locals={f.locals})") ::
      (listing f.code 0).map ("     " ++ ·)
  | c => [number ++ c.display h ++ " (" ++ c.typeName ++ ")"]

def listConstants (p : Program) (h : Heap) : List String :=
  (p.constants.toList.zipIdx.map fun e => constantLines h e.2 e.1).flatten

def listMain (p : Program) : List String := listing p.main.code 0

def disassembly (p : Program) (h : Heap) : String :=
  let lines := ["== constants =="] ++ p.listConstants h ++ ["== main =="] ++ p.listMain
  String.join (lines.map (· ++ "\n"))

/-! ### Equality -/

/-- Whether two functions have the same content; of captured variables only the number counts. -/
def sameFunction (f g : Function) : Bool :=
  f.code == g.code && f.locals == g.locals && f.parameters == g.parameters &&
    f.variadic == g.variadic && f.positions == g.positions && f.captured.size == g.captured.size

def sameEntries (same : Value → Value → Bool) :
    List (String × Value) → List (String × Value) → Bool
  | [], [] => true
  | (k, v) :: rest, (l, w) :: others => k == l && same v w && sameEntries same rest others
  | _, _ => false

/-- Whether two values have the same content: kinds must agree, floats are compared bit by bit, maps
in order and functions by content. -/
@[simp]
def sameContent (h : Heap) : Nat → Value → Value → Bool
  | fuel, v, w =>
    let (m, v) := v.unwrap
    let (n, w) := w.unwrap
    m == n &&
      match fuel, v, w with
      | _, .float a, .float b => a.toBits == b.toBits
      | _, .function f, .function g => sameFunction f g
      | fuel + 1, .array a, .array b | fuel + 1, .frozenArray a, .frozenArray b =>
        Equality.sameItems (sameContent h fuel) (h.array a).toList (h.array b).toList
      | fuel + 1, .map a, .map b | fuel + 1, .frozenMap a, .frozenMap b =>
        sameEntries (sameContent h fuel) (h.map a).entries (h.map b).entries
      | _, v, w => Equality.sameAtoms h v w

def same (p q : Program) (h : Heap) : Bool :=
  p.files == q.files && sameFunction p.main q.main &&
    Equality.sameItems (sameContent h h.depth) p.constants.toList q.constants.toList

end Program

end ScriptEngine
