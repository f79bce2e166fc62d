import ScriptEngine.Text.Pad
/-!
# Instants

A point in time: seconds since 1970 in UTC, and nanoseconds, which pass one second inside a leap
second. Instants can be shifted by nanoseconds, subtracted, ordered and written as a date and a time
of day in the Gregorian calendar. The calendar runs from year -262143 to year 262142.
-/

namespace ScriptEngine

structure Instant where
  seconds : Int
  nanos : Nat
  deriving Repr, DecidableEq, Inhabited

namespace Instant

def daySeconds : Int := 86400

def secondNanos : Int := 1000000000

def first : Int := -8334601228800

def last : Int := 8210266876799

/-- The start of year 1, which counts as no time. -/
def zero : Instant := ⟨-62135596800, 0⟩

def inCalendar (seconds : Int) : Bool := first ≤ seconds && seconds ≤ last

/-- The instant with the given seconds and nanoseconds; only the last second of a minute may be
followed by a leap second. -/
def ofUnix? (seconds : Int) (nanos : Nat) : Option Instant :=
  if inCalendar seconds && nanos < 2000000000 && (nanos < 1000000000 || seconds % 60 == 59) then
    some ⟨seconds, nanos⟩
  else none

/-- Carries whole seconds out of the nanoseconds, which may be negative. -/
def carry (seconds nanos : Int) : Option Instant :=
  let seconds := seconds + nanos / secondNanos
  if inCalendar seconds then some ⟨seconds, (nanos % secondNanos).toNat⟩ else none

/-- The instant `ns` nanoseconds later. A shift that leaves a leap second starts at its end, or at
its beginning when it goes back by a second or more; one that stays inside keeps it. -/
def shift? (t : Instant) (ns : Int) : Option Instant :=
  let whole := ns.tdiv secondNanos
  let part := ns.tmod secondNanos
  let nanos : Int := t.nanos
  if nanos < secondNanos then carry (t.seconds + whole) (nanos + part)
  else if 0 < whole ∨ 2 * secondNanos ≤ nanos + part then
    carry (t.seconds + whole) (nanos - secondNanos + part)
  else if whole < 0 then carry (t.seconds + 1 + whole) (nanos - secondNanos + part)
  else some ⟨t.seconds, (nanos + part).toNat⟩

/-- The nanoseconds from `u` to `t`; a leap second between two times of day counts. -/
def sub (t u : Instant) : Int :=
  let ofDay (x : Instant) : Int := x.seconds % daySeconds
  let leap : Int :=
    if ofDay u < ofDay t ∧ secondNanos ≤ u.nanos then 1
    else if ofDay t < ofDay u ∧ secondNanos ≤ t.nanos then -1
    else 0
  (t.seconds - u.seconds + leap) * secondNanos + ((t.nanos : Int) - u.nanos)

def before (t u : Instant) : Bool :=
  t.seconds < u.seconds || (t.seconds == u.seconds && t.nanos < u.nanos)

/-! ### Text -/

/-- Year, month and day of a day counted from 1970. Years are taken to start in March, in cycles of
400 years. -/
def civil (day : Int) : Int × Nat × Nat :=
  let z := day + 719468
  let era := z / 146097
  let ofEra := (z % 146097).toNat
  let yearOfEra := (ofEra - ofEra / 1460 + ofEra / 36524 - ofEra / 146096) / 365
  let ofYear := ofEra - (365 * yearOfEra + yearOfEra / 4 - yearOfEra / 100)
  let month := (5 * ofYear + 2) / 153
  let dayOfMonth := ofYear - (153 * month + 2) / 5 + 1
  let month := if month < 10 then month + 3 else month - 9
  let year := (yearOfEra : Int) + era * 400 + if month ≤ 2 then 1 else 0
  (year, month, dayOfMonth)

def two (n : Nat) : String := Text.padLeft 2 '0' (Text.decimal n)

/-- A year: four digits, with a sign outside 0 to 9999. -/
def yearText (year : Int) : String :=
  let digits := Text.padLeft 4 '0' (Text.decimal year.natAbs)
  if year < 0 then "-" ++ digits else if 9999 < year then "+" ++ digits else digits

/-- The nanoseconds after a point: three, six or nine digits, and nothing for none. -/
def fractionText (nanos : Nat) : String :=
  if nanos = 0 then ""
  else if nanos % 1000000 = 0 then "." ++ Text.padLeft 3 '0' (Text.decimal (nanos / 1000000))
  else if nanos % 1000 = 0 then "." ++ Text.padLeft 6 '0' (Text.decimal (nanos / 1000))
  else "." ++ Text.padLeft 9 '0' (Text.decimal nanos)

/-- The text of an instant, such as `2023-11-14 22:13:20.500 UTC`. -/
def text (t : Instant) : String :=
  let (year, month, day) := civil (t.seconds / daySeconds)
  let ofDay := (t.seconds % daySeconds).toNat
  let leap := t.nanos / 1000000000
  let clock := two (ofDay / 3600) ++ ":" ++ two (ofDay / 60 % 60) ++ ":" ++ two (ofDay % 60 + leap)
  yearText year ++ "-" ++ two month ++ "-" ++ two day ++ " " ++ clock ++
    fractionText (t.nanos % 1000000000) ++ " UTC"

end Instant

end ScriptEngine
