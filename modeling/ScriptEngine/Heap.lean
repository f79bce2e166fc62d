import ScriptEngine.Failure
import ScriptEngine.Value
/-!
# The heap

The contents of shared values, each kind in a store of its own. An address is the number of a
content in its store; a new content takes the next number, so nothing that exists is disturbed by
an allocation. Reading an address that was never handed out gives an empty content.
-/

namespace ScriptEngine

structure Heap where
  buffers : Array (Array UInt8) := #[]
  arrays : Array (Array Value) := #[]
  maps : Array (Dict Value) := #[]
  iterators : Array Iterator := #[]
  /-- The variables that functions captured. -/
  cells : Array Value := #[]
  /-- How many function identities were handed out. -/
  functions : Nat := 0
  deriving Inhabited

namespace Heap

def buffer (h : Heap) (a : Addr) : Array UInt8 := h.buffers.getD a #[]

def array (h : Heap) (a : Addr) : Array Value := h.arrays.getD a #[]

def map (h : Heap) (a : Addr) : Dict Value := h.maps.getD a {}

def iterator (h : Heap) (a : Addr) : Iterator := h.iterators.getD a default

def cell (h : Heap) (a : Addr) : Value := h.cells.getD a .undefined

def setBuffer (h : Heap) (a : Addr) (content : Array UInt8) : Heap :=
  { h with buffers := h.buffers.setIfInBounds a content }

def setArray (h : Heap) (a : Addr) (content : Array Value) : Heap :=
  { h with arrays := h.arrays.setIfInBounds a content }

def setMap (h : Heap) (a : Addr) (content : Dict Value) : Heap :=
  { h with maps := h.maps.setIfInBounds a content }

def modifyArray (h : Heap) (a : Addr) (f : Array Value → Array Value) : Heap :=
  { h with arrays := h.arrays.modify a f }

def modifyMap (h : Heap) (a : Addr) (f : Dict Value → Dict Value) : Heap :=
  { h with maps := h.maps.modify a f }

def modifyBuffer (h : Heap) (a : Addr) (f : Array UInt8 → Array UInt8) : Heap :=
  { h with buffers := h.buffers.modify a f }

def modifyIterator (h : Heap) (a : Addr) (f : Iterator → Iterator) : Heap :=
  { h with iterators := h.iterators.modify a f }

def setCell (h : Heap) (a : Addr) (v : Value) : Heap :=
  { h with cells := h.cells.setIfInBounds a v }

/-! ### Allocation -/

def newBuffer (h : Heap) (content : Array UInt8) : Addr × Heap :=
  (h.buffers.size, { h with buffers := h.buffers.push content })

def newArray (h : Heap) (content : Array Value) : Addr × Heap :=
  (h.arrays.size, { h with arrays := h.arrays.push content })

def newMap (h : Heap) (content : Dict Value) : Addr × Heap :=
  (h.maps.size, { h with maps := h.maps.push content })

def newIterator (h : Heap) (content : Iterator) : Addr × Heap :=
  (h.iterators.size, { h with iterators := h.iterators.push content })

def newCell (h : Heap) (v : Value) : Addr × Heap :=
  (h.cells.size, { h with cells := h.cells.push v })

def newFunctionId (h : Heap) : Nat × Heap :=
  (h.functions, { h with functions := h.functions + 1 })

/-- A bound on how deep containers can be nested without meeting one again. -/
def depth (h : Heap) : Nat := h.arrays.size + h.maps.size + 1

/-! ### What an allocation leaves alone -/

@[simp]
theorem array_newArray (h : Heap) (content : Array Value) :
    (h.newArray content).2.array (h.newArray content).1 = content := by
  simp [newArray, array]

theorem array_newArray_of_lt (h : Heap) (content : Array Value) {a : Addr} (ha : a < h.arrays.size) :
    (h.newArray content).2.array a = h.array a := by
  have hne : ¬ a = h.arrays.size := Nat.ne_of_lt ha
  simp [newArray, array, Array.getElem?_push, hne]

end Heap

/-- Operations on the heap; one that fails keeps what it had done. -/
abbrev HeapM := EStateM Fault Heap

namespace HeapM

/-- Continues with the result of a computation that does not change the heap. -/
def ofExcept (x : Except Fault α) : HeapM α := fun h =>
  match x with
  | .ok a => .ok a h
  | .error fault => .error fault h

/-- Continues with the result of a computation that reads the heap. -/
def read (f : Heap → Except Fault α) : HeapM α := fun h =>
  match f h with
  | .ok a => .ok a h
  | .error fault => .error fault h

def bytes (content : Array UInt8) : HeapM Value := fun h =>
  let (a, h) := h.newBuffer content
  .ok (.bytes a) h

def array (content : Array Value) : HeapM Value := fun h =>
  let (a, h) := h.newArray content
  .ok (.array a) h

def frozenArray (content : Array Value) : HeapM Value := fun h =>
  let (a, h) := h.newArray content
  .ok (.frozenArray a) h

def map (content : Dict Value) : HeapM Value := fun h =>
  let (a, h) := h.newMap content
  .ok (.map a) h

def frozenMap (content : Dict Value) : HeapM Value := fun h =>
  let (a, h) := h.newMap content
  .ok (.frozenMap a) h

def iterator (kind : IteratorKind) (items : IteratorItems) : HeapM Value := fun h =>
  let (a, h) := h.newIterator { items }
  .ok (.iterator kind a) h

/-- A function like `f` with an identity of its own. -/
def function (f : Function) : HeapM Value := fun h =>
  let (id, h) := h.newFunctionId
  .ok (.function { f with id }) h

end HeapM

/-- The key under which a frozen map of attributes names its module. -/
def moduleNameKey : String := "__module_name__"

/-- A module: a frozen map of attributes that carries its name. -/
def HeapM.moduleOf (name : String) (attributes : Dict Value) : HeapM Value :=
  HeapM.frozenMap (attributes.insert moduleNameKey (.string name))

def Value.moduleName? (h : Heap) : Value → Option String
  | .frozenMap a =>
    match (h.map a).find? moduleNameKey with
    | some (.string name) => some name
    | _ => none
  | _ => none

end ScriptEngine
