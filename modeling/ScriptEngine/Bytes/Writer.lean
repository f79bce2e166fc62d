import ScriptEngine.Instruction
/-!
# Writing binary data

Numbers are big-endian, cut to their width; blocks and texts are preceded by their length in four
bytes. A written item is a list of bytes, and items follow each other by `++`.
-/

namespace ScriptEngine.Bytes

def ofString (s : String) : List UInt8 := s.toUTF8.data.toList

def u8 (n : Nat) : List UInt8 := bigEndian 1 n

def u16 (n : Nat) : List UInt8 := bigEndian 2 n

def u32 (n : Nat) : List UInt8 := bigEndian 4 n

def u64 (n : Nat) : List UInt8 := bigEndian 8 n

def i64 (v : Int64) : List UInt8 := u64 v.toUInt64.toNat

def f64 (v : Float) : List UInt8 := u64 v.toBits.toNat

def blob (bytes : List UInt8) : List UInt8 := u32 bytes.length ++ bytes

def text (s : String) : List UInt8 := blob (ofString s)

end ScriptEngine.Bytes
