import ScriptEngine.Bytes.Reader
import ScriptEngine.Module
import ScriptEngine.Program.Stored
/-!
# Loading programs

Reads stored programs. The parts are checked in order: mark, version, revision, the tag and value of
the checksum, then the sections, of which unknown ones are skipped, then that all sections are there,
and last that the program is valid. Native functions are linked by name: an attribute of a module to
the host's module of that name, or else to a builtin.
-/

namespace ScriptEngine

/-- Loading allocates the constants in the heap. -/
abbrev LoadM := EStateM ProgramError Heap

/-- Reading a section while loading. -/
abbrev Loader := StateT Cursor LoadM

namespace Loader

def read (r : Reader α) : Loader α := fun c =>
  match r c with
  | .ok a c => pure (a, c)
  | .error e _ => throw (.data e)

def alloc (f : Heap → α × Heap) : Loader α := fun c => do
  let a ← modifyGet f
  pure (a, c)

/-- As many items as asked for, after those already read. -/
def repeated (item : Loader α) : Nat → Array α → Loader (Array α)
  | 0, done => return done
  | n + 1, done => do
    let x ← item
    repeated item n (done.push x)

def file : Loader SourceFile := do
  let name ← read Reader.text
  let base ← read Reader.u32
  let size ← read Reader.u32
  let lines ← read Reader.u32
  let lines ← read (Reader.repeated Reader.u32 lines #[])
  return { name, base, size, lines }

def files : Loader FileSet := do
  let base ← read Reader.u32
  let n ← read Reader.u32
  return { base, files := ← repeated file n #[] }

/-- The positions of a function, in any order; the last one of an offset counts. -/
def positions : Nat → PositionTable → Loader PositionTable
  | 0, table => return table
  | n + 1, table => do
    let offset ← read Reader.u32
    let pos ← read Reader.u32
    positions n (table.insert offset pos)

def function : Loader Function := do
  let code ← read Reader.blob
  let locals ← read Reader.u32
  let parameters ← read Reader.u32
  let variadic ← read Reader.u8
  let n ← read Reader.u32
  let positions ← positions n {}
  let id ← alloc Heap.newFunctionId
  return { id, code, locals, parameters, variadic := variadic != 0, positions }

/-- Links a native function, which may be an attribute of a module. -/
def link (modules : ModuleTable) (name : String) (owner : Option (String × String)) : Loader Value := do
  let h ← getThe Heap
  let linked := owner.bind fun (m, key) => (modules.attributes? h m).bind (·.find? key)
  match linked with
  | some (.native f) => return .native f
  | _ =>
    match Builtin.ofName? name with
    | some b => return .native (.builtin b)
    | none =>
      throw (.unknownNative (match owner with
        | some (m, key) => m ++ "." ++ key
        | none => name))

/-- Entries of a map, inserted in turn. -/
def entries (item : String → Loader Value) : Nat → Dict Value → Loader (Dict Value)
  | 0, done => return done
  | n + 1, done => do
    let key ← read Reader.text
    let v ← item key
    entries item n (done.insert key v)

/-- A value nested in others; `room` bounds how many levels may follow. -/
def value (modules : ModuleTable) : (room : Nat) → Option (String × String) → Loader Value
  | 0, _ => throw (.data (.corrupted "constant nesting too deep"))
  | room + 1, owner => do
    let code ← read Reader.u8
    let items : Loader (Array Value) := do
      let n ← read Reader.u32
      repeated (value modules room none) n #[]
    let attributes (name : Option String) : Loader (Dict Value) := do
      let n ← read Reader.u32
      entries (fun key => value modules room (name.map (·, key))) n {}
    match ValueTag.ofCode? code with
    | none => throw (.unknownTag code)
    | some .undefined => return .undefined
    | some .int => return .int (← read Reader.i64)
    | some .float => return .float (← read Reader.f64)
    | some .char =>
      let code ← read Reader.u32
      if h : code.isValidChar then return .char (Char.ofNatAux code h)
      else throw (.data (.corrupted s!"invalid char {code}"))
    | some .bool => return .bool ((← read Reader.u8) != 0)
    | some .string => return .string (← read Reader.text)
    | some .bytes =>
      let content ← read Reader.blob
      return .bytes (← alloc (·.newBuffer content))
    | some .array =>
      let content ← items
      return .array (← alloc (·.newArray content))
    | some .frozenArray =>
      let content ← items
      return .frozenArray (← alloc (·.newArray content))
    | some .map =>
      let content ← attributes none
      return .map (← alloc (·.newMap content))
    | some .frozenMap =>
      let content ← attributes none
      return .frozenMap (← alloc (·.newMap content))
    | some .module =>
      let name ← read Reader.text
      let content ← attributes (some name)
      return .frozenMap (← alloc (·.newMap content))
    | some .time =>
      let seconds ← read Reader.i64
      let nanos ← read Reader.u32
      match Instant.ofUnix? seconds.toInt nanos with
      | some t => return .time t
      | none => throw (.data (.corrupted "time out of range"))
    | some .error => return .error (← value modules room none)
    | some .native =>
      let name ← read Reader.text
      link modules name owner
    | some .function => return .function (← function)

def constants (modules : ModuleTable) : Loader (Array Value) := do
  let n ← read Reader.u32
  repeated (value modules (Stored.maxDepth + 1) none) n #[]

end Loader

namespace Decode

/-- The sections found so far; of two with one tag the later one counts. -/
structure Parts where
  files : Option FileSet := none
  main : Option Function := none
  constants : Option (Array Value) := none

/-- Runs a reader over a payload; what is left of it is ignored. -/
def payload (l : Loader α) (bytes : Array UInt8) : LoadM α := do
  return (← l { data := bytes }).1

def plain (r : Reader α) (c : Cursor) : LoadM (α × Cursor) :=
  match r c with
  | .ok a c => return (a, c)
  | .error e _ => throw (.data e)

def part (modules : ModuleTable) (tag bytes : Array UInt8) (parts : Parts) : LoadM Parts := do
  if tag.toList = Stored.fileTag then
    return { parts with files := some (← payload Loader.files bytes) }
  else if tag.toList = Stored.mainTag then
    return { parts with main := some (← payload Loader.function bytes) }
  else if tag.toList = Stored.constantsTag then
    return { parts with constants := some (← payload (Loader.constants modules) bytes) }
  else return parts

/-- Loads sections until the bytes end; the fuel is the number of bytes. -/
def parts (modules : ModuleTable) : Nat → Cursor → Parts → LoadM Parts
  | 0, _, found => return found
  | fuel + 1, c, found => do
    if c.remaining = 0 then return found
    let (tag, c) ← plain (Reader.take 4) c
    let (bytes, c) ← plain Reader.blob c
    let found ← part modules tag bytes found
    parts modules fuel c found

/-- A section that must be there. -/
def required (name : String) : Option α → LoadM α
  | some a => return a
  | none => throw (.missingSection name)

/-- Reads the mark, version and revision, and gives the offset after them. -/
def header (data : Array UInt8) : Except ProgramError Nat := do
  let size := Stored.magic.length
  if (data.extract 0 size).toList ≠ Stored.magic then throw .badMagic
  match Reader.u16 { data, offset := size } with
  | .error e _ => throw (.data e)
  | .ok version c =>
    if version ≠ Stored.version then throw (.unsupportedVersion version)
    match Reader.u16 c with
    | .error e _ => throw (.data e)
    | .ok revision c =>
      if revision ≠ Opcode.revision then throw (.opcodeRevision revision)
      return c.offset

/-- Splits off the checksum and verifies it; the result is what lies between header and checksum. -/
def body (checksum : Array UInt8 → UInt32) (data : Array UInt8) (start : Nat) : Except ProgramError (Array UInt8) := do
  if data.size < start + 8 then throw (.data (.endOfData 8 data.size))
  let stop := data.size - 8
  let trailer := (data.extract stop data.size).toList
  if trailer.take 4 ≠ Stored.checksumTag then
    throw (.data (.corrupted "missing CRCC trailer"))
  let stored := (ofBigEndian (trailer.drop 4)).toUInt32
  let computed := checksum (data.extract 0 stop)
  if stored ≠ computed then throw (.checksumMismatch stored computed)
  return data.extract start stop

end Decode

/-- Loads a program that was stored with a checksum of some kind. -/
def Program.decodeWith (checksum : Array UInt8 → UInt32) (modules : ModuleTable)
    (data : Array UInt8) : LoadM Program := do
  let start ← ofExcept (Decode.header data)
  let bytes ← ofExcept (Decode.body checksum data start)
  let found ← Decode.parts modules bytes.size { data := bytes } {}
  let files ← Decode.required "FILE" found.files
  let main ← Decode.required "MAIN" found.main
  let constants ← Decode.required "CNST" found.constants
  let p : Program := { files, main, constants }
  ofExcept p.validate
  return p

def Program.decode (modules : ModuleTable) (data : Array UInt8) : LoadM Program :=
  Program.decodeWith Checksum.crc32 modules data

end ScriptEngine
