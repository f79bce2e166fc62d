import ScriptEngine.Decimal.Digits
import ScriptEngine.Heap
import ScriptEngine.Text.Quoted
import ScriptEngine.Text.Utf8
/-!
# Text of values

`display` writes a value the way scripts show it: texts in quotes, containers with their contents,
and a container inside itself as dots. `plainText` is the same without quotes around a text.
`plainTextWithin` gives up as soon as the text would pass a bound, so that no more is built; both go
through one function, `renderInto`.
-/

namespace ScriptEngine

/-- A container on the way from a value to a part of it. -/
inductive Container where
  | array (a : Addr)
  | map (a : Addr)
  deriving Repr, DecidableEq, Inhabited

/-- The text of a float: all digits written out, the fewest that read back. -/
def floatText (v : Float) : String :=
  match Decimal.FloatClass.of v with
  | .nan => "NaN"
  | .infinite negative => if negative then "-Inf" else "+Inf"
  | .finite negative m e =>
    (if negative then "-" else "") ++ (Decimal.shortest m e).positional

def intText (v : Int64) : String := Text.integer v.toInt

namespace Value

/-- The text of a value that has no parts; containers are shown without their contents. -/
def atomText (h : Heap) : Value → String
  | .undefined => "<undefined>"
  | .int v => intText v
  | .float v => floatText v
  | .char c => String.singleton c
  | .bool b => if b then "true" else "false"
  | .string s => Text.quoted s
  | .bytes a => Text.decodeLossy (h.buffer a)
  | .array _ | .frozenArray _ => "[...]"
  | .map _ | .frozenMap _ => "\x7b...\x7d"
  | .time t => t.text
  | .error _ => "error: "
  | .native _ => "<builtin-function>"
  | .function _ => "<compiled-function>"
  | .iterator .array _ => "<array-iterator>"
  | .iterator .string _ => "<string-iterator>"
  | .iterator .map _ => "<map-iterator>"

end Value

/-! ### Rendering into a bounded text -/

namespace Render

/-- Adds a piece, unless the text would grow past the bound (in UTF-8 bytes). -/
def emit (bound : Option Nat) (piece out : String) : Option String :=
  if bound.all fun most => out.utf8ByteSize + piece.utf8ByteSize ≤ most then some (out ++ piece) else none

def separated (bound : Option Nat) (item : α → String → Option String) :
    Bool → List α → String → Option String
  | _, [], out => some out
  | started, x :: rest, out =>
    (if started then emit bound ", " out else some out).bind fun out =>
      (item x out).bind (separated bound item true rest)

/-- Renders a value after a text. `path` holds the containers around it; the fuel bounds how many
containers can still be entered. -/
def renderInto (h : Heap) (bound : Option Nat) : Nat → List Container → Value → String → Option String
  | fuel, path, v, out =>
    let (errors, core) := v.unwrap
    (emit bound (String.join (List.replicate errors "error: ")) out).bind fun out =>
      match fuel, core with
      | fuel + 1, .array a | fuel + 1, .frozenArray a =>
        if .array a ∈ path then emit bound (core.atomText h) out
        else
          (emit bound "[" out).bind fun out =>
            let item := renderInto h bound fuel (.array a :: path)
            (separated bound item false (h.array a).toList out).bind (emit bound "]")
      | fuel + 1, .map a | fuel + 1, .frozenMap a =>
        if .map a ∈ path then emit bound (core.atomText h) out
        else
          (emit bound "\x7b" out).bind fun out =>
            let item := fun (e : String × Value) out =>
              (emit bound (e.1 ++ ": ") out).bind (renderInto h bound fuel (.map a :: path) e.2)
            (separated bound item false (h.map a).entries out).bind (emit bound "\x7d")
      | _, _ => emit bound (core.atomText h) out

end Render

namespace Value

/-- The text of a value as scripts show it. -/
def display (h : Heap) (v : Value) : String :=
  (Render.renderInto h none h.depth [] v "").getD ""

/-- The text of a value without quotes around a text. -/
def plainText (h : Heap) : Value → String
  | .string s => s
  | v => v.display h

/-- The plain text of a value if it has at most `most` bytes. -/
def plainTextWithin (h : Heap) (most : Nat) : Value → Except Fault String
  | .string s => if s.utf8ByteSize ≤ most then .ok s else .error .stringLimit
  | .bytes a =>
    if most < (h.buffer a).size then .error .stringLimit
    else
      let s := Text.decodeLossy (h.buffer a)
      if s.utf8ByteSize ≤ most then .ok s else .error .stringLimit
  | v =>
    match Render.renderInto h (some most) h.depth [] v "" with
    | some s => .ok s
    | none => .error .stringLimit

end Value

end ScriptEngine
