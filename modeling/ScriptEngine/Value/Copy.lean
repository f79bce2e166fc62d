import ScriptEngine.Value.Render
/-!
# Copies of values

A copy has new containers all the way down, and none of them is frozen. A container that is reached
twice is copied once, so that sharing and cycles are the same in the copy; bytes are copied each time.
-/

namespace ScriptEngine

namespace Copy

structure State where
  heap : Heap
  seen : List (Container × Addr) := []

abbrev CopyM := StateM State

/-- The copy of a container, if it was already met. -/
def known (c : Container) : CopyM (Option Addr) := do
  return ((← get).seen.find? (·.1 = c)).map (·.2)

def startArray (c : Container) : CopyM Addr := modifyGet fun s =>
  let (b, heap) := s.heap.newArray #[]
  (b, { heap, seen := (c, b) :: s.seen })

def startMap (c : Container) : CopyM Addr := modifyGet fun s =>
  let (b, heap) := s.heap.newMap {}
  (b, { heap, seen := (c, b) :: s.seen })

/-- Copies items in turn, after those already copied. -/
def each (copy : α → CopyM β) : Array β → List α → CopyM (Array β)
  | done, [] => return done
  | done, x :: rest => do
    let y ← copy x
    each copy (done.push y) rest

/-- Runs an operation on the heap that cannot fail. -/
def onHeap (f : Heap → α × Heap) : CopyM α := modifyGet fun s =>
  let (x, heap) := f s.heap
  (x, { s with heap })

/-- The copy of an array with some items. An array that was already met is not copied again. -/
def copyArray (copy : Value → CopyM Value) (a : Addr) (items : List Value) : CopyM Value := do
  match ← known (.array a) with
  | some b => return .array b
  | none =>
    let b ← startArray (.array a)
    let items ← each copy #[] items
    modify fun s => { s with heap := s.heap.setArray b items }
    return .array b

/-- The copy of a map with some entries. A map that was already met is not copied again. -/
def copyMap (copy : Value → CopyM Value) (a : Addr) (entries : List (String × Value)) : CopyM Value := do
  match ← known (.map a) with
  | some b => return .map b
  | none =>
    let b ← startMap (.map a)
    let entries ← each (fun (e : String × Value) => do return (e.1, ← copy e.2)) #[] entries
    modify fun s => { s with heap := s.heap.setMap b (Dict.ofList entries.toList) }
    return .map b

/-- Copies a value of a heap, whose contents stay as they are. The fuel bounds how many containers can
still be entered. -/
def copyIn (source : Heap) : Nat → Value → CopyM Value
  | fuel, v => do
    let (errors, core) := v.unwrap
    let copied ←
      match fuel, core with
      | fuel + 1, .array a | fuel + 1, .frozenArray a =>
        copyArray (copyIn source fuel) a (source.array a).toList
      | fuel + 1, .map a | fuel + 1, .frozenMap a =>
        copyMap (copyIn source fuel) a (source.map a).entries
      | _, .bytes a => onHeap fun h =>
        let (b, h) := h.newBuffer (source.buffer a)
        (.bytes b, h)
      | _, .iterator kind a => onHeap fun h =>
        let (b, h) := h.newIterator (source.iterator a)
        (.iterator kind b, h)
      | _, core => pure core
    return Value.wrap errors copied

end Copy

def Value.copy (v : Value) : HeapM Value := fun h =>
  let (copied, s) := Copy.copyIn h h.depth v { heap := h }
  .ok copied s.heap

/-- A frozen array or map with the content that the value has now; any other value is itself. -/
def Value.freeze : Value → HeapM Value
  | .array a => do HeapM.frozenArray ((← getThe Heap).array a)
  | .map a => do HeapM.frozenMap ((← getThe Heap).map a)
  | v => pure v

end ScriptEngine
