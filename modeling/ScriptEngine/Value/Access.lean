import ScriptEngine.Value.Render
/-!
# Reading and writing parts of values

Indexing, assignment by index, slices and iteration. Positions in texts count characters. A key of a
map is the plain text of the index.
-/

namespace ScriptEngine

namespace Value

def isFalsy (h : Heap) : Value → Bool
  | .int v => v == 0
  | .float v => v.isNaN
  | .char c => c == '\x00'
  | .bool b => !b
  | .string s => s.isEmpty
  | .bytes a => (h.buffer a).isEmpty
  | .array a | .frozenArray a => (h.array a).isEmpty
  | .map a | .frozenMap a => (h.map a).isEmpty
  | .time t => t == Instant.zero
  | .native _ | .function _ => false
  | .undefined | .error _ | .iterator _ _ => true

/-! ### Indexing -/

def asIndex : Value → Except Fault Int
  | .int i => .ok i.toInt
  | other => .error (.indexType other.typeName)

def asKey (h : Heap) : Value → Except Fault String
  | .undefined => .error (.indexType "undefined")
  | other => .ok (other.plainText h)

/-- The item at an index that may be negative or too large. -/
def itemAt? (items : Array α) (i : Int) : Option α :=
  if 0 ≤ i then items[i.toNat]? else none

def itemAt (items : Array α) (index : Value) : Except Fault α := do
  match itemAt? items (← index.asIndex) with
  | some x => .ok x
  | none => .error .indexOutOfBounds

/-- `v[index]`. A key that a map lacks, and any part of undefined, is undefined. -/
def get (h : Heap) (v index : Value) : Except Fault Value :=
  match v with
  | .array a | .frozenArray a => itemAt (h.array a) index
  | .map a | .frozenMap a => do return ((h.map a).find? (← index.asKey h)).getD .undefined
  | .string s => do return .char (← itemAt s.toList.toArray index)
  | .bytes a => do return .int (← itemAt (h.buffer a) index).toNat.toInt64
  | .error e =>
    match index with
    | .string "value" => .ok e
    | _ => .error .indexOnError
  | .undefined => .ok .undefined
  | other => .error (.notIndexable other.typeName)

/-- Where an item of a sequence is written. -/
def placeAt (size : Nat) (i : Int) : Except Fault Nat :=
  if 0 ≤ i ∧ i < size then .ok i.toNat else .error .indexOutOfBounds

/-- The change of the heap that `v[index] = x` makes. Only arrays, maps and bytes that are not
frozen can be changed, and bytes keep the low byte of an integer. -/
def change (h : Heap) (v index x : Value) : Except Fault (Heap → Heap) :=
  match v with
  | .array a => do
    let i ← placeAt (h.array a).size (← index.asIndex)
    return fun h => h.modifyArray a (·.setIfInBounds i x)
  | .map a => do
    let key ← index.asKey h
    return fun h => h.modifyMap a (·.insert key x)
  | .bytes a => do
    let i ← index.asIndex
    match x with
    | .int n => do
      let i ← placeAt (h.buffer a).size i
      return fun h => h.modifyBuffer a (·.setIfInBounds i n.toUInt64.toUInt8)
    | other => .error (.elementType other.typeName)
  | other => .error (.notIndexAssignable other.typeName)

def set (v index x : Value) : HeapM Unit := fun h =>
  match change h v index x with
  | .ok f => .ok () (f h)
  | .error fault => .error fault h

/-! ### Slices -/

/-- A bound of a slice, cut to the length; undefined stands for the default. -/
def asBound (length default : Nat) : Value → Except Fault Nat
  | .undefined => .ok default
  | .int i => .ok (min i.toInt.toNat length)
  | other => .error (.indexType other.typeName)

/-- Both bounds of a slice, in order. -/
def sliceBounds (length : Nat) (low high : Value) : Except Fault (Nat × Nat) := do
  let lo ← low.asBound length 0
  let hi ← high.asBound length length
  if hi < lo then .error (.sliceBounds lo hi) else .ok (lo, hi)

/-- `v[low:high]`: a new sequence that shares nothing with the old one. -/
def slice (v low high : Value) : HeapM Value := do
  match v with
  | .array a | .frozenArray a =>
    let items := (← getThe Heap).array a
    let (lo, hi) ← HeapM.ofExcept (sliceBounds items.size low high)
    HeapM.array (items.extract lo hi)
  | .string s =>
    let chars := s.toList
    let (lo, hi) ← HeapM.ofExcept (sliceBounds chars.length low high)
    return .string (String.ofList ((chars.drop lo).take (hi - lo)))
  | .bytes a =>
    let items := (← getThe Heap).buffer a
    let (lo, hi) ← HeapM.ofExcept (sliceBounds items.size low high)
    HeapM.bytes (items.extract lo hi)
  | other => throw (.notIndexable other.typeName)

/-! ### Iteration -/

/-- A new iterator, before the first item. It runs over the items as they are now. -/
def iterate (v : Value) : HeapM Value := do
  match v with
  | .array a | .frozenArray a => HeapM.iterator .array (.array ((← getThe Heap).array a))
  | .map a | .frozenMap a => HeapM.iterator .map (.map ((← getThe Heap).map a).entries.toArray)
  | .string s => HeapM.iterator .string (.string s.toList.toArray)
  | other => throw (.notIterable other.typeName)

/-- Moves an iterator on, and says whether it stands at an item. -/
def advance (v : Value) : HeapM Bool :=
  match v with
  | .iterator _ a => fun h =>
    let h := h.modifyIterator a fun it => { it with moved := it.moved + 1 }
    let it := h.iterator a
    .ok (it.moved ≤ it.items.size) h
  | other => throw (.notIterable other.typeName)

/-- The item of an iterator, if it stands at one. -/
def current? (items : Array α) (moved : Nat) : Option α :=
  if moved = 0 then none else items[moved - 1]?

/-- The key at which an iterator stands: the number of the item, or the key of a map. -/
def iteratorKey (h : Heap) : Value → Except Fault Value
  | .iterator _ a =>
    let it := h.iterator a
    match it.items with
    | .array _ | .string _ => .ok (.int (Int64.ofInt ((it.moved : Int) - 1)))
    | .map entries => .ok (((current? entries it.moved).map fun e => Value.string e.1).getD .undefined)
  | other => .error (.notIterable other.typeName)

/-- The item at which an iterator stands, undefined if there is none. -/
def iteratorValue (h : Heap) : Value → Except Fault Value
  | .iterator _ a =>
    let it := h.iterator a
    match it.items with
    | .array items => .ok ((current? items it.moved).getD .undefined)
    | .string chars => .ok (((current? chars it.moved).map Value.char).getD .undefined)
    | .map entries => .ok (((current? entries it.moved).map (·.2)).getD .undefined)
  | other => .error (.notIterable other.typeName)

end Value

end ScriptEngine
