import ScriptEngine.Document
import ScriptEngine.Machine.Run
import ScriptEngine.Program.Decode
/-!
# Commands

What the command line does with stored programs: run one, list one, or describe one. Files are an
association of paths with contents, so that a command is a function from files to files.
-/

namespace ScriptEngine

abbrev Directory := Dict (Array UInt8)

structure RunRequest where
  input : String
  timeout : Option Nat := none
  maxAllocs : Option Int := none
  maxString : Option Nat := none
  maxArray : Option Nat := none
  time : Bool := false
  deriving Repr, DecidableEq, Inhabited

inductive Command where
  | run (request : RunRequest)
  /-- Lists a program, on the output or in a file. -/
  | disasm (input : String) (output : Option String)
  /-- Describes a program, as text or as JSON. -/
  | inspect (input : String) (json : Bool)
  deriving Repr, DecidableEq, Inhabited

def Command.input : Command → String
  | .run request => request.input
  | .disasm input _ => input
  | .inspect input _ => input

structure Report where
  code : Nat := 0
  output : String := ""
  /-- What is told beside the output. -/
  notices : List String := []
  files : Directory := {}

inductive CommandError where
  | noInput (path : String)
  | invalidProgram (path : String) (e : ProgramError)
  | outOfFuel
  deriving Repr, DecidableEq, Inhabited

def CommandError.message : CommandError → String
  | .noInput path => s!"lecture de {path}"
  | .invalidProgram path e => s!"bytecode invalide: {path}: {e.message}"
  | .outOfFuel => "execution aborted"

/-! ### Descriptions -/

structure Inspection where
  size : Nat
  version : Nat
  revision : Nat
  sources : List String
  constants : Nat
  /-- How many constants there are of each type, sorted by type. -/
  kinds : List (String × Nat)
  functions : Nat
  codeBytes : Nat
  mainBytes : Nat
  values : Nat
  deriving Repr, DecidableEq, Inhabited

namespace Inspection

def tally (names : List String) : List (String × Nat) :=
  let counts := names.foldl (fun d name => d.insert name ((d.find? name).getD 0 + 1)) ({} : Dict Nat)
  counts.entries.mergeSort fun a b => !decide (b.1 < a.1)

/-- Describes a program and the bytes that it was loaded from. -/
def of (data : Array UInt8) (p : Program) (h : Heap) : Inspection :=
  let number (offset : Nat) := ofBigEndian (data.extract offset (offset + 2)).toList
  let start := Stored.magic.length
  { size := data.size
    version := number start
    revision := number (start + 2)
    sources := p.files.files.toList.map (·.name)
    constants := p.constants.size
    kinds := tally (p.constants.toList.map Value.typeName)
    functions := p.functions.length
    codeBytes := p.functions.foldl (fun n f => n + f.code.size) p.main.code.size
    mainBytes := p.main.code.size
    values := p.count h }

def toDocument (i : Inspection) : Document :=
  let number (n : Nat) : Document := .integer n
  .record [
    ("size", number i.size),
    ("format_version", number i.version),
    ("opcode_revision", number i.revision),
    ("sources", .list (i.sources.map .text)),
    ("constants", number i.constants),
    ("constant_kinds", .record (i.kinds.map fun k => (k.1, number k.2))),
    ("functions", number i.functions),
    ("instruction_bytes", number i.codeBytes),
    ("main_instruction_bytes", number i.mainBytes),
    ("objects", number i.values)]

def text (i : Inspection) : String :=
  let kinds := ", ".intercalate (i.kinds.map fun k => s!"{k.2} {k.1}")
  let sources := ", ".intercalate i.sources
  let lines := [
    s!"size         : {i.size} bytes",
    s!"format       : SKBC v{i.version} (opcode revision {i.revision})"] ++
    (if i.version = Stored.version then []
      else [s!"               (moteur : v{Stored.version})"]) ++ [
    s!"sources      : {i.sources.length} ({sources})",
    s!"constants    : {i.constants} ({kinds})",
    s!"functions    : {i.functions}",
    s!"instructions : {i.codeBytes} bytes (main {i.mainBytes})",
    s!"objects      : {i.values}"]
  String.join (lines.map (· ++ "\n"))

end Inspection

namespace Command

def load (files : Directory) (path : String) : Except CommandError (Array UInt8 × Program × Heap) :=
  match files.find? path with
  | none => .error (.noInput path)
  | some data =>
    match Program.decode {} data {} with
    | .ok p h => .ok (data, p, h)
    | .error e _ => .error (.invalidProgram path e)

def limitsOf (request : RunRequest) : Limits :=
  let standard : Limits := {}
  { maxString := request.maxString.getD standard.maxString
    maxBytes := standard.maxBytes
    maxArray := request.maxArray.getD standard.maxArray
    maxAllocs := request.maxAllocs.getD standard.maxAllocs }

/-- Runs a program. The exit code tells a failure from a run that was stopped. -/
def runProgram (fuel : Nat) (request : RunRequest) (files : Directory) : Except CommandError Report := do
  let (_, program, heap) ← load files request.input
  let setting : Setting := { program, limits := limitsOf request }
  let machine := Machine.new setting #[] { timeLeft := request.timeout } heap
  match Machine.run setting fuel machine with
  | .ok _ _ => return { files }
  | .error .outOfFuel _ => throw .outOfFuel
  | .error (.failure f) _ =>
    return { code := if f.isAborted then 2 else 1, notices := [f.message], files }

/-- Carries out a command. The fuel bounds how many instructions a run executes. -/
def execute (fuel : Nat) (command : Command) (files : Directory) : Except CommandError Report :=
  match command with
  | .run request => runProgram fuel request files
  | .disasm input output => do
    let (_, p, h) ← load files input
    let text := p.disassembly h
    match output with
    | none => return { output := text, files }
    | some path =>
      return {
        notices := [Text.padLeft 8 ' ' "disasm" ++ " " ++ path]
        files := files.insert path text.toUTF8.data }
  | .inspect input json => do
    let (data, p, h) ← load files input
    let i := Inspection.of data p h
    return { output := if json then i.toDocument.pretty ++ "\n" else i.text, files }

end Command

end ScriptEngine
