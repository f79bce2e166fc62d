import ScriptEngine.Command
/-!
# The command line

Reads the arguments and files, carries out the command, and writes what it leaves behind.
-/

namespace ScriptEngine.CommandLine

def usage : String :=
  "usage: run [FILE] [--timeout-ms N] [--max-allocs N] [--max-string-len N] [--max-array-len N] [--time]\n" ++
  "       disasm [FILE] [-o FILE]\n" ++
  "       inspect [FILE] [--json]"

/-- The path that stands for the standard input. -/
def standardInput : String := "<stdin>"

/-- The file that an argument names. -/
def inputOf (arg : String) : String := if arg == "-" then standardInput else arg

def runArguments : List String → RunRequest → Option RunRequest
  | [], request => some request
  | "--time" :: rest, request => runArguments rest { request with time := true }
  | "--timeout-ms" :: n :: rest, request => do
    runArguments rest { request with timeout := some (← n.toNat?) }
  | "--max-allocs" :: n :: rest, request => do
    runArguments rest { request with maxAllocs := some (← n.toInt?) }
  | "--max-string-len" :: n :: rest, request => do
    runArguments rest { request with maxString := some (← n.toNat?) }
  | "--max-array-len" :: n :: rest, request => do
    runArguments rest { request with maxArray := some (← n.toNat?) }
  | arg :: rest, request => runArguments rest { request with input := inputOf arg }

def listArguments : List String → String → Option String → Option Command
  | [], input, output => some (.disasm input output)
  | "-o" :: path :: rest, input, _ => listArguments rest input (some path)
  | "--output" :: path :: rest, input, _ => listArguments rest input (some path)
  | arg :: rest, _, output => listArguments rest (inputOf arg) output

def inspectArguments : List String → String → Bool → Option Command
  | [], input, json => some (.inspect input json)
  | "--json" :: rest, input, _ => inspectArguments rest input true
  | arg :: rest, _, json => inspectArguments rest (inputOf arg) json

def parse : List String → Option Command
  | "run" :: rest => (runArguments rest { input := standardInput }).map .run
  | "disasm" :: rest => listArguments rest standardInput none
  | "inspect" :: rest => inspectArguments rest standardInput false
  | _ => none

partial def readInput (source : IO.FS.Stream) (data : ByteArray) : IO ByteArray := do
  let piece ← source.read 65536
  if piece.isEmpty then return data
  readInput source (data ++ piece)

def readFile (path : String) : IO ByteArray := do
  if path == standardInput then readInput (← IO.getStdin) .empty
  else IO.FS.readBinFile path

/-- Carries out a command with ever more fuel, until it is done or its time is over. A command does
nothing outside before it is done, so it can be started again. -/
partial def attempt (command : Command) (files : Directory) (start : Nat) (timeout : Option Nat)
    (fuel : Nat) : IO (Except CommandError Report) := do
  match command.execute fuel files with
  | .error .outOfFuel =>
    let passed := (← IO.monoMsNow) - start
    if timeout.any (· ≤ passed) then
      return .ok { code := 2, notices := [CommandError.outOfFuel.message], files }
    attempt command files start timeout (2 * fuel)
  | result => return result

/-- Tells what a command left behind, and writes the file that it made. -/
def tell (command : Command) (start : Nat) (report : Report) : IO UInt32 := do
  IO.print report.output
  match command with
  | .disasm _ (some path) =>
    match report.files.find? path with
    | some content => IO.FS.writeBinFile path ⟨content⟩
    | none => pure ()
  | .run request =>
    if request.time then
      let passed := (← IO.monoMsNow) - start
      IO.eprintln s!"    time {passed}ms"
  | _ => pure ()
  for notice in report.notices do IO.eprintln notice
  return report.code.toUInt32

end ScriptEngine.CommandLine

open ScriptEngine ScriptEngine.CommandLine in
def main (args : List String) : IO UInt32 := do
  match parse args with
  | none =>
    IO.eprintln usage
    return 2
  | some command =>
    let data ← readFile command.input
    let files : Directory := ({} : Directory).insert command.input data.data
    let start ← IO.monoMsNow
    let timeout :=
      match command with
      | .run request => request.timeout
      | _ => none
    match ← attempt command files start timeout 1000000 with
    | .ok report => tell command start report
    | .error e =>
      IO.eprintln s!"error: {e.message}"
      return 1
