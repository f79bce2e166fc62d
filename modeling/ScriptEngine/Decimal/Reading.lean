import ScriptEngine.Decimal.Binary
/-!
# Reading numbers

Whole numbers and floats from text. A sign may come first; a float is a special word in any case, or
digits with at most one point and an optional power of ten. The nearest float is taken.
-/

namespace ScriptEngine.Decimal

def splitSign : List Char → Bool × List Char
  | '-' :: rest => (true, rest)
  | '+' :: rest => (false, rest)
  | cs => (false, cs)

def ofDigits (digits : List Char) : Nat :=
  digits.foldl (fun n c => n * 10 + (c.toNat - '0'.toNat)) 0

def spanDigits (cs : List Char) : List Char × List Char :=
  (cs.takeWhile Char.isDigit, cs.dropWhile Char.isDigit)

/-- A whole number: a sign, then at least one digit and nothing else. -/
def readInt? (cs : List Char) : Option Int :=
  let (negative, digits) := splitSign cs
  if digits ≠ [] && digits.all Char.isDigit then
    let n : Int := ofDigits digits
    some (if negative then -n else n)
  else none

def readInt64? (cs : List Char) : Option Int64 :=
  match readInt? cs with
  | some n => if Int64.minValue.toInt ≤ n ∧ n ≤ Int64.maxValue.toInt then some (Int64.ofInt n) else none
  | none => none

/-- The power of ten after the digits of a float: nothing, or `e` and a whole number. -/
def readPower? : List Char → Option Int
  | [] => some 0
  | c :: rest => if c == 'e' || c == 'E' then readInt? rest else none

/-- The bits of the float nearest to `coefficient * 10 ^ exponent`. Powers that leave the range of
floats in either direction are not computed. -/
def nearestDecimal (coefficient : Nat) (exponent : Int) : Nat :=
  if coefficient = 0 then 0
  else
    let top := ((Nat.toDigits 10 coefficient).length : Int) + exponent
    if 400 < top then infinityBits
    else if top < -400 then 0
    else
      let (n, d) := scaleTen coefficient 1 exponent
      nearestBits n d

/-- The bits of a positive float written in digits. -/
def readDigits? (cs : List Char) : Option Nat :=
  let (whole, rest) := spanDigits cs
  let (fraction, rest) :=
    match rest with
    | '.' :: rest => spanDigits rest
    | rest => ([], rest)
  if whole = [] ∧ fraction = [] then none
  else (readPower? rest).map fun power =>
    nearestDecimal (ofDigits (whole ++ fraction)) (power - fraction.length)

/-- The bits of the quiet float that is not a number. -/
def nanBits : Nat := 0x7ff8000000000000

def readFloat? (cs : List Char) : Option Float :=
  let (negative, body) := splitSign cs
  let word := String.ofList (body.map Char.toLower)
  let bits :=
    if word = "inf" ∨ word = "infinity" then some infinityBits
    else if word = "nan" then some nanBits
    else readDigits? body
  bits.map fun b => Float.ofBits (b + if negative then 1 <<< 63 else 0).toUInt64

end ScriptEngine.Decimal
