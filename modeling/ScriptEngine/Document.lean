import ScriptEngine.Decimal.Digits
import ScriptEngine.Text.Pad
/-!
# Structured documents

Data to be exchanged with other programs: numbers, texts, lists and records, written as JSON either
on one line or with one item a line.
-/

namespace ScriptEngine

inductive Document where
  | null
  | bool (b : Bool)
  | integer (n : Int)
  | float (v : Float)
  | text (s : String)
  | list (items : List Document)
  | record (fields : List (String × Document))
  deriving Inhabited

namespace Document

/-- A character of a text in quotes. -/
def escape (c : Char) : String :=
  if c = '"' then "\\\""
  else if c = '\\' then "\\\\"
  else if c = '\n' then "\\n"
  else if c = '\r' then "\\r"
  else if c = '\t' then "\\t"
  else if c = '\x08' then "\\b"
  else if c = '\x0c' then "\\f"
  else if c.toNat < 0x20 then "\\u" ++ Text.padLeft 4 '0' (Text.numeral 16 c.toNat)
  else String.singleton c

def addText (s out : String) : String :=
  (s.toList.foldl (fun out c => out ++ escape c) (out.push '"')).push '"'

/-- A float that reads back; what is no number or not finite becomes null. -/
def floatText (v : Float) : String :=
  match Decimal.FloatClass.of v with
  | .nan | .infinite _ => "null"
  | .finite negative m e =>
    let d := Decimal.shortest m e
    let body :=
      if d.magnitude < -5 ∨ 16 < d.magnitude then d.scientific
      else if 0 ≤ d.exponent then d.positional ++ ".0"
      else d.positional
    (if negative then "-" else "") ++ body

/-- Adds a line end and the blanks before an item at a depth. -/
def addIndent (depth : Nat) (out : String) : String :=
  out ++ "\n" ++ Text.repeated ' ' (2 * depth)

mutual

/-- Adds a document on one line. -/
def addCompact : Document → String → String
  | .null, out => out ++ "null"
  | .bool b, out => out ++ if b then "true" else "false"
  | .integer n, out => out ++ Text.integer n
  | .float v, out => out ++ floatText v
  | .text s, out => addText s out
  | .list items, out => (addCompactItems false items (out.push '[')).push ']'
  | .record fields, out => (addCompactFields false fields (out ++ "\x7b")) ++ "\x7d"

def addCompactItems : Bool → List Document → String → String
  | _, [], out => out
  | started, d :: rest, out =>
    addCompactItems true rest (addCompact d (if started then out.push ',' else out))

def addCompactFields : Bool → List (String × Document) → String → String
  | _, [], out => out
  | started, (key, d) :: rest, out =>
    addCompactFields true rest
      (addCompact d ((addText key (if started then out.push ',' else out)).push ':'))

end

mutual

/-- Adds a document with one item a line, indented by its depth. -/
def addPretty (depth : Nat) : Document → String → String
  | .null, out => out ++ "null"
  | .bool b, out => out ++ if b then "true" else "false"
  | .integer n, out => out ++ Text.integer n
  | .float v, out => out ++ floatText v
  | .text s, out => addText s out
  | .list [], out => out ++ "[]"
  | .list (d :: rest), out =>
    (addIndent depth (addPrettyItems (depth + 1) false (d :: rest) (out.push '['))).push ']'
  | .record [], out => out ++ "\x7b\x7d"
  | .record (e :: rest), out =>
    addIndent depth (addPrettyFields (depth + 1) false (e :: rest) (out ++ "\x7b")) ++ "\x7d"

def addPrettyItems (depth : Nat) : Bool → List Document → String → String
  | _, [], out => out
  | started, d :: rest, out =>
    let out := addIndent depth (if started then out.push ',' else out)
    addPrettyItems depth true rest (addPretty depth d out)

def addPrettyFields (depth : Nat) : Bool → List (String × Document) → String → String
  | _, [], out => out
  | started, (key, d) :: rest, out =>
    let out := addText key (addIndent depth (if started then out.push ',' else out)) ++ ": "
    addPrettyFields depth true rest (addPretty depth d out)

end

def compact (d : Document) : String := addCompact d ""

def pretty (d : Document) : String := addPretty 0 d ""

/-! ### Looking into documents -/

def field? (name : String) : Document → Option Document
  | .record fields => (fields.find? (·.1 == name)).map Prod.snd
  | _ => none

/-- One of several alternatives: its name, and its part when it has one. -/
def variant? : Document → Option (String × Document)
  | .text name => some (name, .null)
  | .record [(name, part)] => some (name, part)
  | _ => none

mutual

/-- How deep lists and records are nested. -/
def depth : Document → Nat
  | .list items => depthOfItems items + 1
  | .record fields => depthOfFields fields + 1
  | _ => 1

def depthOfItems : List Document → Nat
  | [] => 0
  | d :: rest => max d.depth (depthOfItems rest)

def depthOfFields : List (String × Document) → Nat
  | [] => 0
  | (_, d) :: rest => max d.depth (depthOfFields rest)

end

mutual

/-- Whether two documents hold the same; floats are compared as numbers, so one that is not a number
differs from itself. -/
def same : Document → Document → Bool
  | .null, .null => true
  | .bool a, .bool b => a == b
  | .integer a, .integer b => a == b
  | .float a, .float b => a == b
  | .text a, .text b => a == b
  | .list as, .list bs => sameItems as bs
  | .record as, .record bs => sameFields as bs
  | _, _ => false

def sameItems : List Document → List Document → Bool
  | [], [] => true
  | a :: as, b :: bs => same a b && sameItems as bs
  | _, _ => false

def sameFields : List (String × Document) → List (String × Document) → Bool
  | [], [] => true
  | (k, a) :: as, (l, b) :: bs => k == l && same a b && sameFields as bs
  | _, _ => false

end

end Document

end ScriptEngine
