/-!
# Checksum

The 32-bit cyclic redundancy check with the reflected polynomial `EDB88320`, all ones at the start
and complemented at the end.
-/

namespace ScriptEngine.Checksum

def shift (r : UInt32) : UInt32 :=
  if r &&& 1 = 1 then (r >>> 1) ^^^ 0xEDB88320 else r >>> 1

def update (r : UInt32) (b : UInt8) : UInt32 :=
  shift (shift (shift (shift (shift (shift (shift (shift (r ^^^ b.toUInt32))))))))

def crc32 (bytes : Array UInt8) : UInt32 :=
  bytes.foldl update 0xFFFFFFFF ^^^ 0xFFFFFFFF

end ScriptEngine.Checksum
