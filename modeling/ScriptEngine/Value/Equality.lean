import ScriptEngine.Heap
/-!
# Equality of values

`==` of the scripting language. Scalars compare by value, containers by content whether frozen or
not, maps without regard to order, compiled functions and iterators by identity, native functions by
name. A pair of containers that is already being compared counts as equal, so that the comparison of
cyclic values ends; only finitely many pairs exist, and that is the fuel.
-/

namespace ScriptEngine

/-- A pair of containers under comparison. -/
inductive ContainerPair where
  | arrays (a b : Addr)
  | maps (a b : Addr)
  deriving Repr, DecidableEq, Inhabited

namespace Equality

/-- Compares two lists of one length item by item. -/
def sameItems (same : Value → Value → Bool) : List Value → List Value → Bool
  | [], [] => true
  | x :: xs, y :: ys => same x y && sameItems same xs ys
  | _, _ => false

/-- Compares two dictionaries of one size key by key. -/
def sameEntries (same : Value → Value → Bool) (xs : List (String × Value)) (ys : Dict Value) : Bool :=
  xs.all fun e => (ys.find? e.1).any (same e.2)

/-- Compares the contents of two arrays, unless they are being compared already. -/
def sameArrays (h : Heap) (path : List ContainerPair) (a b : Addr)
    (same : List ContainerPair → Value → Value → Bool) : Bool :=
  let pair := ContainerPair.arrays a b
  if pair ∈ path then true
  else
    (h.array a).size == (h.array b).size &&
      sameItems (same (pair :: path)) (h.array a).toList (h.array b).toList

/-- Compares the contents of two maps, unless they are being compared already. -/
def sameMaps (h : Heap) (path : List ContainerPair) (a b : Addr)
    (same : List ContainerPair → Value → Value → Bool) : Bool :=
  let pair := ContainerPair.maps a b
  if pair ∈ path then true
  else
    (h.map a).size == (h.map b).size &&
      sameEntries (same (pair :: path)) (h.map a).entries (h.map b)

def sameAtoms (h : Heap) : Value → Value → Bool
  | .undefined, .undefined => true
  | .int a, .int b => a == b
  | .float a, .float b => a == b
  | .char a, .char b => a == b
  | .bool a, .bool b => a == b
  | .string a, .string b => a == b
  | .bytes a, .bytes b => h.buffer a == h.buffer b
  | .time a, .time b => a == b
  | .native f, .native g => f.name == g.name
  | .function f, .function g => f.id == g.id
  | .iterator k a, .iterator l b => k == l && a == b
  | _, _ => false

/-- Compares two values, given the pairs already under comparison. -/
def sameIn (h : Heap) : Nat → List ContainerPair → Value → Value → Bool
  | fuel, path, v, w =>
    let (m, v) := v.unwrap
    let (n, w) := w.unwrap
    m == n &&
      match fuel, v, w with
      | 0, _, _ => sameAtoms h v w
      | fuel + 1, .array a, .array b | fuel + 1, .frozenArray a, .frozenArray b =>
        a == b || sameArrays h path a b (sameIn h fuel)
      | fuel + 1, .array a, .frozenArray b | fuel + 1, .frozenArray b, .array a =>
        sameArrays h path a b (sameIn h fuel)
      | fuel + 1, .map a, .map b | fuel + 1, .frozenMap a, .frozenMap b =>
        a == b || sameMaps h path a b (sameIn h fuel)
      | fuel + 1, .map a, .frozenMap b | fuel + 1, .frozenMap b, .map a =>
        sameMaps h path a b (sameIn h fuel)
      | _, v, w => sameAtoms h v w

end Equality

/-- How many pairs of containers there are, and one more. -/
def Heap.pairs (h : Heap) : Nat := h.arrays.size * h.arrays.size + h.maps.size * h.maps.size + 1

/-- Whether two values are equal for a script. -/
def Value.equal (h : Heap) (v w : Value) : Bool := Equality.sameIn h h.pairs [] v w

end ScriptEngine
