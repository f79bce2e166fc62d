/-!
# Padding and numerals

Texts of a least width, and numbers in a base. Widths count characters.
-/

namespace ScriptEngine.Text

def repeated (c : Char) (n : Nat) : String := String.ofList (List.replicate n c)

def padLeft (width : Nat) (fill : Char) (s : String) : String :=
  repeated fill (width - s.length) ++ s

def padRight (width : Nat) (s : String) : String :=
  s ++ repeated ' ' (width - s.length)

/-- A number in a base up to 16, with lower-case digits. -/
def numeral (base n : Nat) : String := String.ofList (Nat.toDigits base n)

def decimal (n : Nat) : String := numeral 10 n

/-- A whole number in decimal, with a sign when it is negative. -/
def integer (n : Int) : String :=
  if n < 0 then "-" ++ decimal n.natAbs else decimal n.natAbs

/-- The letters a to z as capitals; all else is kept. -/
def capitals (s : String) : String := String.ofList (s.toList.map Char.toUpper)

/-- A byte as two hexadecimal digits. -/
def hexByte (b : UInt8) : String := padLeft 2 '0' (numeral 16 b.toNat)

def hex (bytes : List UInt8) : String := String.join (bytes.map hexByte)

end ScriptEngine.Text
