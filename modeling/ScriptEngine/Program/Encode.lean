import ScriptEngine.Bytes.Writer
import ScriptEngine.Program.Stored
/-!
# Storing programs

The bytes of a program. Native functions are stored by name. A function that captured variables and
an iterator cannot be stored.
-/

namespace ScriptEngine

namespace Encode

open Bytes

def each (item : α → Except ProgramError (List UInt8)) (items : List α) :
    Except ProgramError (List UInt8) := do
  return (← items.mapM item).flatten

def files (s : FileSet) : List UInt8 :=
  u32 s.base ++ u32 s.files.size ++ s.files.toList.flatMap fun f =>
    text f.name ++ u32 f.base ++ u32 f.size ++ u32 f.lines.size ++ f.lines.toList.flatMap u32

def function (f : Function) : Except ProgramError (List UInt8) :=
  if f.captured.isEmpty then
    .ok (blob f.code.toList ++ u32 f.locals ++ u32 f.parameters ++
      u8 f.variadic.toNat ++ u32 f.positions.entries.size ++
      f.positions.entries.toList.flatMap fun e => u32 e.1 ++ u32 e.2)
  else .error (.unencodable "closure")

def tag (t : ValueTag) : List UInt8 := u8 t.code

/-- A value without parts. -/
def atom (h : Heap) : Value → Except ProgramError (List UInt8)
  | .undefined => .ok (tag .undefined)
  | .int v => .ok (tag .int ++ i64 v)
  | .float v => .ok (tag .float ++ f64 v)
  | .char c => .ok (tag .char ++ u32 c.toNat)
  | .bool b => .ok (tag .bool ++ u8 b.toNat)
  | .string s => .ok (tag .string ++ text s)
  | .bytes a => .ok (tag .bytes ++ blob (h.buffer a).toList)
  | .time t => .ok (tag .time ++ i64 (Int64.ofInt t.seconds) ++ u32 t.nanos)
  | .native f => .ok (tag .native ++ text f.name)
  | .function f => (function f).map (tag .function ++ ·)
  | v => .error (.unencodable v.typeName)

/-- The items of an array: their number, then each of them. -/
def items (item : Value → Except ProgramError (List UInt8)) (content : Array Value) :
    Except ProgramError (List UInt8) := do
  return u32 content.size ++ (← each item content.toList)

/-- The entries of a map: their number, then each key with its value. -/
def entries (item : Value → Except ProgramError (List UInt8)) (content : Dict Value) :
    Except ProgramError (List UInt8) := do
  let entry (e : String × Value) := do return text e.1 ++ (← item e.2)
  return u32 content.size ++ (← each entry content.entries)

/-- A value; the fuel bounds the nesting of containers. -/
@[simp]
def value (h : Heap) : Nat → Value → Except ProgramError (List UInt8)
  | fuel, v => do
    let (errors, core) := v.unwrap
    let bytes ←
      match fuel, core with
      | fuel + 1, .array a => (tag .array ++ ·) <$> items (value h fuel) (h.array a)
      | fuel + 1, .frozenArray a => (tag .frozenArray ++ ·) <$> items (value h fuel) (h.array a)
      | fuel + 1, .map a => (tag .map ++ ·) <$> entries (value h fuel) (h.map a)
      | fuel + 1, .frozenMap a =>
        match core.moduleName? h with
        | some name => (tag .module ++ text name ++ ·) <$> entries (value h fuel) (h.map a)
        | none => (tag .frozenMap ++ ·) <$> entries (value h fuel) (h.map a)
      | _, core => atom h core
    return (List.replicate errors (tag .error)).flatten ++ bytes

/-- A section: its tag and a block. -/
def sectionOf (tag payload : List UInt8) : List UInt8 := tag ++ blob payload

end Encode

/-- The bytes of a program, with a checksum of some kind. -/
def Program.encodeWith (checksum : Array UInt8 → UInt32) (p : Program) (h : Heap) :
    Except ProgramError (List UInt8) := do
  let main ← Encode.function p.main
  let constants ← Encode.each (Encode.value h h.depth) p.constants.toList
  let body := Stored.magic ++ Bytes.u16 Stored.version ++ Bytes.u16 Opcode.revision ++
    Encode.sectionOf Stored.fileTag (Encode.files p.files) ++
    Encode.sectionOf Stored.mainTag main ++
    Encode.sectionOf Stored.constantsTag (Bytes.u32 p.constants.size ++ constants)
  return body ++ Stored.checksumTag ++ Bytes.u32 (checksum body.toArray).toNat

def Program.encode (p : Program) (h : Heap) : Except ProgramError (List UInt8) :=
  p.encodeWith Checksum.crc32 h

end ScriptEngine
