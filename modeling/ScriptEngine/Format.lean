import ScriptEngine.Decimal.Reading
import ScriptEngine.Limits
import ScriptEngine.Value.Arithmetic
import ScriptEngine.Value.Render
/-!
# Formatted text

A format is text with directives `%[flags][width][.precision]verb`, each of which shows the next
argument. `parse` takes a format apart, `render` shows one argument and `pad` brings it to its width.
An argument that does not suit its verb, a missing one and those left over are shown as such. All
texts are kept within the limit, which is checked before anything long is built.
-/

namespace ScriptEngine.Format

/-- What stands between the percent sign and the verb of a directive. -/
structure Spec where
  minus : Bool := false
  plus : Bool := false
  zero : Bool := false
  space : Bool := false
  width : Option Nat := none
  precision : Option Nat := none
  deriving Repr, DecidableEq, Inhabited

inductive Piece where
  | literal (c : Char)
  | directive (spec : Spec) (verb : Char)
  /-- The format ends where a verb should be. -/
  | noVerb
  deriving Repr, DecidableEq, Inhabited

/-! ### Taking a format apart -/

def isFlag (c : Char) : Bool := c == '-' || c == '+' || c == '0' || c == ' '

/-- The largest number that a width or precision can be. -/
def largest : Nat := 0xFFFFFFFFFFFFFFFF

/-- The number that digits denote, if there are any. -/
def number? (digits : List Char) : Option Nat :=
  if digits.isEmpty then none else some (min (Decimal.ofDigits digits) largest)

/-- The precision and what follows it: a point and digits, none of which mean 0. -/
def splitPrecision : List Char → Option Nat × List Char
  | '.' :: rest => (some ((number? (rest.takeWhile Char.isDigit)).getD 0), rest.dropWhile Char.isDigit)
  | rest => (none, rest)

/-- The flags, the width and the precision, and what follows them. -/
def splitSpec (cs : List Char) : Spec × List Char :=
  let flags := cs.takeWhile isFlag
  let afterFlags := cs.dropWhile isFlag
  let (precision, rest) := splitPrecision (afterFlags.dropWhile Char.isDigit)
  ({ minus := flags.contains '-'
     plus := flags.contains '+'
     zero := flags.contains '0'
     space := flags.contains ' '
     width := number? (afterFlags.takeWhile Char.isDigit)
     precision }, rest)

theorem length_dropWhile_le (p : α → Bool) (l : List α) : (l.dropWhile p).length ≤ l.length :=
  (List.dropWhile_sublist p).length_le

theorem length_splitPrecision_le (cs : List Char) : (splitPrecision cs).2.length ≤ cs.length := by
  unfold splitPrecision
  split
  · exact Nat.le_succ_of_le (length_dropWhile_le _ _)
  · exact Nat.le_refl _

theorem length_splitSpec_le (cs : List Char) : (splitSpec cs).2.length ≤ cs.length :=
  Nat.le_trans (length_splitPrecision_le _)
    (Nat.le_trans (length_dropWhile_le _ _) (length_dropWhile_le _ _))

/-- The parts of a format, after those already found (last first). -/
def parseInto (found : List Piece) (cs : List Char) : List Piece :=
  match cs with
  | [] => found.reverse
  | c :: rest =>
    if c = '%' then
      let spec := splitSpec rest
      match _hs : spec.2 with
      | [] => (.noVerb :: found).reverse
      | verb :: rest' =>
        let piece := if verb = '%' then .literal '%' else .directive spec.1 verb
        parseInto (piece :: found) rest'
    else parseInto (.literal c :: found) rest
termination_by cs.length
decreasing_by
  · have hle := length_splitSpec_le rest
    have hspec : (splitSpec rest).2 = verb :: rest' := _hs
    rw [hspec] at hle
    simp only [List.length_cons] at hle ⊢
    omega
  · simp

def parse (format : String) : List Piece := parseInto [] format.toList

/-! ### Showing an argument -/

/-- Whether the precision of a verb counts digits of a float. -/
def isFloatVerb (verb : Char) : Bool := "fFeEgG".toList.contains verb

/-- Whether zeros may be filled in between sign and digits. -/
def isNumericVerb (verb : Char) : Bool := "dxXobfFeEgG".toList.contains verb

/-- Puts the sign before digits: a minus, or what the flags ask for. -/
def signed (spec : Spec) (negative : Bool) (digits : String) : String :=
  (if negative then "-" else if spec.plus then "+" else if spec.space then " " else "") ++ digits

def intDigits (spec : Spec) (base : Nat) (v : Int64) : String :=
  signed spec (v < 0) (Text.numeral base v.toInt.natAbs)

/-- Drops the zeros after a point, and the point if nothing follows it. -/
def trimZeros (s : String) : String :=
  if s.toList.contains '.' then
    String.ofList (((s.toList.reverse.dropWhile (· == '0')).dropWhile (· == '.')).reverse)
  else s

/-- A float without its sign, to a number of decimal places. -/
def fixed (v : Float) (places : Nat) : String :=
  match Decimal.FloatClass.of v with
  | .nan => "NaN"
  | .infinite _ => "inf"
  | .finite _ m e => (Decimal.toPlaces m e places).positional

/-- A float without its sign, with a power of ten and a number of decimal places. -/
def exponential (v : Float) (places : Nat) : String :=
  match Decimal.FloatClass.of v with
  | .nan => "NaN"
  | .infinite _ => "inf"
  | .finite _ m e => (Decimal.toSignificant m e places).scientific

/-- A float in the shorter of both notations: a power of ten is written when it is below -4, or 21
and more, or not less than the precision. With a precision, zeros at the end are dropped. -/
def general (spec : Spec) (v : Float) : String :=
  match Decimal.FloatClass.of v with
  | .nan => "NaN"
  | .infinite negative => if negative then "-Inf" else "+Inf"
  | .finite negative m e =>
    let body :=
      match spec.precision with
      | none =>
        let d := Decimal.shortest m e
        if d.magnitude < -4 ∨ 21 ≤ d.magnitude then d.scientific else d.positional
      | some p =>
        let p := max p 1
        let d := Decimal.toSignificant m e (p - 1)
        if d.magnitude < -4 ∨ (p : Int) ≤ d.magnitude then trimZeros d.mantissa ++ d.power
        else trimZeros (Decimal.toPlaces m e ((p : Int) - 1 - d.magnitude).toNat).positional
    signed spec (negative && m != 0) body

/-- Cuts a text to a number of characters. -/
def cut (precision : Option Nat) (s : String) : String :=
  match precision with
  | some p => String.ofList (s.toList.take p)
  | none => s

/-- Bytes in hexadecimal, which takes two characters for each. -/
def hexWithin (budget : Nat) (upper : Bool) (bytes : List UInt8) : Except Fault (Option String) :=
  if budget < bytes.length * 2 then .error .stringLimit
  else .ok (some (if upper then Text.capitals (Text.hex bytes) else Text.hex bytes))

/-- Shows an argument, or nothing if it does not suit the verb. -/
def render (h : Heap) (verb : Char) (spec : Spec) (arg : Value) (budget : Nat) :
    Except Fault (Option String) :=
  match verb, arg with
  | 'v', .float v => .ok (some (general spec v))
  | 'v', .int v => .ok (some (intDigits spec 10 v))
  | 'v', other | 's', other => do return some (cut spec.precision (← other.plainTextWithin h budget))
  | 'd', .int v => .ok (some (intDigits spec 10 v))
  | 'd', .char c => .ok (some (Text.decimal c.toNat))
  | 'q', .string s => .ok (some (Text.quoted s))
  | 'q', .char c => .ok (some (Text.quotedChar c))
  | 't', .bool b => .ok (some (if b then "true" else "false"))
  | 'c', .char c => .ok (some (String.singleton c))
  | 'c', .int v => .ok ((Arithmetic.charOf? v.toInt).map String.singleton)
  | 'x', .int v => .ok (some (intDigits spec 16 v))
  | 'X', .int v => .ok (some (Text.capitals (intDigits spec 16 v)))
  | 'o', .int v => .ok (some (intDigits spec 8 v))
  | 'b', .int v => .ok (some (intDigits spec 2 v))
  | 'x', .string s => hexWithin budget false s.toUTF8.data.toList
  | 'X', .string s => hexWithin budget true s.toUTF8.data.toList
  | 'x', .bytes a => hexWithin budget false (h.buffer a).toList
  | 'X', .bytes a => hexWithin budget true (h.buffer a).toList
  | 'f', .float v | 'F', .float v =>
    .ok (some (signed spec (Decimal.signBit v) (fixed v (spec.precision.getD 6))))
  | 'e', .float v =>
    .ok (some (signed spec (Decimal.signBit v) (exponential v (spec.precision.getD 6))))
  | 'E', .float v =>
    .ok (some (signed spec (Decimal.signBit v) (Text.capitals (exponential v (spec.precision.getD 6)))))
  | 'g', .float v => .ok (some (general spec v))
  | 'G', .float v => .ok (some (Text.capitals (general spec v)))
  | _, _ => .ok none

def typed (h : Heap) (budget : Nat) (arg : Value) : Except Fault String := do
  return arg.typeName ++ "=" ++ (← arg.plainTextWithin h budget)

/-! ### Padding -/

def splitSign (body : String) : String × String :=
  match body.toList with
  | c :: rest =>
    if c == '-' || c == '+' || c == ' ' then (String.singleton c, String.ofList rest) else ("", body)
  | [] => ("", body)

/-- Fills a text up to its width: on the right, with zeros after the sign, or on the left. -/
def pad (spec : Spec) (numeric : Bool) (body : String) : String :=
  let fill := spec.width.getD 0 - body.length
  if fill = 0 then body
  else if spec.minus then body ++ Text.repeated ' ' fill
  else if spec.zero && numeric then
    let (sign, digits) := splitSign body
    sign ++ Text.repeated '0' fill ++ digits
  else Text.repeated ' ' fill ++ body

/-! ### The whole text -/

def addDirective (h : Heap) (limits : Limits) (spec : Spec) (verb : Char) (arg : Value) (out : String) :
    Except Fault String := do
  let width := spec.width.getD 0
  let precision := if isFloatVerb verb then spec.precision.getD 0 else 0
  limits.checkString (min largest (out.utf8ByteSize + max width precision))
  let budget := limits.maxString - out.utf8ByteSize
  let body ←
    match ← render h verb spec arg budget with
    | some body => pure body
    | none => pure ("%!" ++ String.singleton verb ++ "(" ++ (← typed h budget arg) ++ ")")
  limits.checkString (out.utf8ByteSize + max body.utf8ByteSize width)
  return out ++ pad spec (isNumericVerb verb) body

/-- Adds the parts of a format, with the arguments that are left after them. -/
def addPieces (h : Heap) (limits : Limits) : List Piece → List Value → String → Except Fault (String × List Value)
  | [], args, out => .ok (out, args)
  | .literal c :: pieces, args, out => addPieces h limits pieces args (out.push c)
  | .noVerb :: pieces, args, out => addPieces h limits pieces args (out ++ "%!(NOVERB)")
  | .directive _ verb :: pieces, [], out =>
    addPieces h limits pieces [] (out ++ "%!" ++ String.singleton verb ++ "(MISSING)")
  | .directive spec verb :: pieces, arg :: args, out =>
    match addDirective h limits spec verb arg out with
    | .ok out => addPieces h limits pieces args out
    | .error fault => .error fault

/-- Lists the arguments that no directive showed. -/
def addExtra (h : Heap) (limits : Limits) : Bool → List Value → String → Except Fault String
  | _, [], out => .ok out
  | started, arg :: args, out =>
    let out := if started then out ++ ", " else out
    match typed h (limits.maxString - out.utf8ByteSize) arg with
    | .ok piece => addExtra h limits true args (out ++ piece)
    | .error fault => .error fault

def format (h : Heap) (limits : Limits) (fmt : String) (args : List Value) : Except Fault String := do
  let (out, left) ← addPieces h limits (parse fmt) args ""
  let out ←
    match left with
    | [] => pure out
    | left => do
      let out ← addExtra h limits false left (out ++ "%!(EXTRA ")
      pure (out.push ')')
  limits.checkString out.utf8ByteSize
  return out

end ScriptEngine.Format
