import ScriptEngine.Proofs.Value.Correspondence
/-!
# Laws of values

A law says which texts, sizes, functions and native functions there may be, and at which places contents
may be kept. Values obey a law together with the heap that holds their contents (`Heap.Obeys`), as long as the
law permits what the limits do (`ValueLaw.Permits`).
-/

namespace ScriptEngine

variable {content : Array Value} {α : Type} {v : Value}

/-- What values are held to. -/
structure ValueLaw where
  string : String → Prop
  /-- The sizes of bytes and of arrays. -/
  bufferSize : Nat → Prop
  arraySize : Nat → Prop
  function : Function → Prop
  /-- The functions that may be active. -/
  code : Function → Prop
  native : Native → Prop
  /-- The places of contents. -/
  buffers : Addr → Prop
  arrays : Addr → Prop
  maps : Addr → Prop
  iterators : Addr → Prop
  cells : Addr → Prop
  active : ∀ f, function f → code f
  captured : ∀ f, code f → ∀ a ∈ f.captured, cells a

variable {law : ValueLaw}

/-- A value obeys a law; its contents are the concern of the heap. -/
def Value.Obeys (law : ValueLaw) : Value → Prop
  | .string s => law.string s
  | .bytes a => law.buffers a
  | .array a | .frozenArray a => law.arrays a
  | .map a | .frozenMap a => law.maps a
  | .error v => v.Obeys law
  | .native f => law.native f
  | .function f => law.function f
  | .iterator _ a => law.iterators a
  | .undefined | .int _ | .float _ | .char _ | .bool _ | .time _ => True

/-- The items of an iterator obey a law. -/
def IteratorItems.Obeys (law : ValueLaw) : IteratorItems → Prop
  | .array items => ∀ v ∈ items, v.Obeys law
  | .string _ => True
  | .map entries => ∀ e ∈ entries, e.2.Obeys law

/-- Contents at the places of a law obey it, and new contents will be at such places. -/
structure Heap.Obeys (law : ValueLaw) (h : Heap) : Prop where
  buffer : ∀ a, law.buffers a → law.bufferSize (h.buffer a).size
  array : ∀ a, law.arrays a → law.arraySize (h.array a).size
  items : ∀ a, law.arrays a → ∀ v ∈ h.array a, v.Obeys law
  entries : ∀ a, law.maps a → ∀ e ∈ (h.map a).entries, e.2.Obeys law
  iterator : ∀ a, law.iterators a → (h.iterator a).items.Obeys law
  cell : ∀ a, law.cells a → (h.cell a).Obeys law
  newBuffer : ∀ k, law.buffers (h.buffers.size + k)
  newArray : ∀ k, law.arrays (h.arrays.size + k)
  newMap : ∀ k, law.maps (h.maps.size + k)
  newIterator : ∀ k, law.iterators (h.iterators.size + k)
  newCell : ∀ k, law.cells (h.cells.size + k)

/-- A law permits what passes the limits and parts of what it permits. -/
structure ValueLaw.Permits (law : ValueLaw) (limits : Limits) : Prop where
  string : ∀ s : String, s.utf8ByteSize ≤ limits.maxString → law.string s
  bytes : ∀ n ≤ limits.maxBytes, law.bufferSize n
  array : ∀ n ≤ limits.maxArray, law.arraySize n
  substring : ∀ s t, law.string s → t.toList.Sublist s.toList → law.string t
  fewerBytes : ∀ m n, law.bufferSize n → m ≤ n → law.bufferSize m
  fewerItems : ∀ m n, law.arraySize n → m ≤ n → law.arraySize m
  typeName : ∀ v : Value, v.Obeys law → law.string v.typeName

/-! ### Values -/

namespace Value

theorem Obeys.unwrap (h : v.Obeys law) : v.unwrap.2.Obeys law := by
  induction v with
  | error v ih => exact ih h
  | _ => exact h

theorem Obeys.wrap (h : v.Obeys law) (n : Nat) : (Value.wrap n v).Obeys law := by
  induction n with
  | zero => exact h
  | succ n ih => exact ih

end Value

theorem IteratorItems.obeys_default : (default : Iterator).items.Obeys law := by
  intro v hv
  cases hv with
  | mk hv => cases hv

/-! ### Heaps -/

theorem getD_push (xs : Array α) (x d : α) (i : Nat) :
    (xs.push x).getD i d = if i = xs.size then x else xs.getD i d := by
  simp only [Array.getD_eq_getD_getElem?, Array.getElem?_push]
  split <;> rfl

theorem getD_modify (xs : Array α) (a i : Nat) (f : α → α) (d : α) :
    (xs.modify a f).getD i d = if i = a ∧ a < xs.size then f (xs.getD i d) else xs.getD i d := by
  simp only [Array.getD_eq_getD_getElem?, Array.getElem?_modify]
  by_cases hi : i = a
  · subst hi
    by_cases hlt : i < xs.size
    · simp [hlt]
    · simp [hlt]
  · simp [hi, Ne.symm hi]

theorem Heap.setArray_eq (h : Heap) (a : Addr) (items : Array Value) :
    h.setArray a items = h.modifyArray a fun _ => items := by
  congr 1

theorem Heap.setMap_eq (h : Heap) (a : Addr) (entries : Dict Value) :
    h.setMap a entries = h.modifyMap a fun _ => entries := by
  congr 1

section Stores

variable {xs : Array α} {d x : α} {places : Addr → Prop} {P : α → Prop}

/-- What holds of the contents at some places holds with new contents, too. -/
theorem forall_getD_push (h : ∀ a, places a → P (xs.getD a d)) (hx : P x) :
    ∀ a, places a → P ((xs.push x).getD a d) := by
  intro a ha
  rw [getD_push]
  split
  · exact hx
  · exact h a ha

theorem forall_size_push (h : ∀ k, places (xs.size + k)) (x : α) : ∀ k, places ((xs.push x).size + k) := by
  intro k
  have hnew := h (1 + k)
  rwa [← Nat.add_assoc, ← Array.size_push x] at hnew

theorem forall_getD_modify {a : Addr} {f : α → α} (h : ∀ b, places b → P (xs.getD b d))
    (hf : places a → P (f (xs.getD a d))) : ∀ b, places b → P ((xs.modify a f).getD b d) := by
  intro b hb
  rw [getD_modify]
  split
  · next heq =>
    obtain ⟨rfl, -⟩ := heq
    exact hf hb
  · exact h b hb

theorem forall_size_modify (h : ∀ k, places (xs.size + k)) (a : Addr) (f : α → α) :
    ∀ k, places ((xs.modify a f).size + k) := by
  rwa [Array.size_modify]

end Stores

namespace Heap.Obeys

variable {h : Heap} (hh : h.Obeys law)

include hh

theorem pushBuffer {content : Array UInt8} (hsize : law.bufferSize content.size) :
    (h.newBuffer content).2.Obeys law :=
  { hh with
    buffer := forall_getD_push (P := fun bytes : Array UInt8 => law.bufferSize bytes.size) hh.buffer hsize
    newBuffer := forall_size_push hh.newBuffer content }

theorem pushArray (hsize : law.arraySize content.size) (hitems : ∀ v ∈ content, v.Obeys law) :
    (h.newArray content).2.Obeys law :=
  { hh with
    array := forall_getD_push (P := fun items : Array Value => law.arraySize items.size) hh.array hsize
    items := forall_getD_push (P := fun items : Array Value => ∀ v ∈ items, v.Obeys law) hh.items hitems
    newArray := forall_size_push hh.newArray content }

theorem pushMap {content : Dict Value} (hentries : ∀ e ∈ content.entries, e.2.Obeys law) :
    (h.newMap content).2.Obeys law :=
  { hh with
    entries := forall_getD_push (P := fun d : Dict Value => ∀ e ∈ d.entries, e.2.Obeys law) hh.entries hentries
    newMap := forall_size_push hh.newMap content }

theorem pushIterator {it : Iterator} (hit : it.items.Obeys law) : (h.newIterator it).2.Obeys law :=
  { hh with
    iterator := forall_getD_push (P := fun it : Iterator => it.items.Obeys law) hh.iterator hit
    newIterator := forall_size_push hh.newIterator it }

theorem pushCell (hv : v.Obeys law) : (h.newCell v).2.Obeys law :=
  { hh with
    cell := forall_getD_push hh.cell hv
    newCell := forall_size_push hh.newCell v }

variable (a : Addr)

theorem modifyBuffer {f : Array UInt8 → Array UInt8}
    (hf : law.bufferSize (h.buffer a).size → law.bufferSize (f (h.buffer a)).size) : (h.modifyBuffer a f).Obeys law :=
  { hh with
    buffer := forall_getD_modify (P := fun bytes : Array UInt8 => law.bufferSize bytes.size) hh.buffer fun ha =>
      hf (hh.buffer a ha)
    newBuffer := forall_size_modify hh.newBuffer a f }

theorem modifyArray {f : Array Value → Array Value}
    (hsize : law.arrays a → law.arraySize (f (h.array a)).size)
    (hitems : law.arrays a → ∀ v ∈ f (h.array a), v.Obeys law) : (h.modifyArray a f).Obeys law :=
  { hh with
    array := forall_getD_modify (P := fun items : Array Value => law.arraySize items.size) hh.array hsize
    items := forall_getD_modify (P := fun items : Array Value => ∀ v ∈ items, v.Obeys law) hh.items hitems
    newArray := forall_size_modify hh.newArray a f }

theorem modifyMap {f : Dict Value → Dict Value}
    (hentries : law.maps a → ∀ e ∈ (f (h.map a)).entries, e.2.Obeys law) : (h.modifyMap a f).Obeys law :=
  { hh with
    entries := forall_getD_modify (P := fun d : Dict Value => ∀ e ∈ d.entries, e.2.Obeys law) hh.entries hentries
    newMap := forall_size_modify hh.newMap a f }

/-- An iterator moves on. -/
theorem advance : (h.modifyIterator a fun it => { it with moved := it.moved + 1 }).Obeys law :=
  { hh with
    iterator := forall_getD_modify (P := fun it : Iterator => it.items.Obeys law) hh.iterator (hh.iterator a)
    newIterator := forall_size_modify hh.newIterator a _ }

theorem setCell (hv : v.Obeys law) : (h.setCell a v).Obeys law := by
  have hset : h.setCell a v = { h with cells := h.cells.modify a fun _ => v } := by
    congr 1
  rw [hset]
  exact { hh with
    cell := forall_getD_modify hh.cell fun _ => hv
    newCell := forall_size_modify hh.newCell a _ }

end Heap.Obeys

/-! ### The law that asks for nothing -/

/-- All values are lawful. -/
def ValueLaw.anything : ValueLaw where
  string _ := True
  bufferSize _ := True
  arraySize _ := True
  function _ := True
  code _ := True
  native _ := True
  buffers _ := True
  arrays _ := True
  maps _ := True
  iterators _ := True
  cells _ := True
  active _ _ := trivial
  captured _ _ _ _ := trivial

theorem Value.obeys_anything (v : Value) : v.Obeys .anything := by
  induction v with
  | error v ih => exact ih
  | _ => trivial

theorem Heap.obeys_anything (h : Heap) : h.Obeys .anything where
  buffer _ _ := trivial
  array _ _ := trivial
  items _ _ v _ := v.obeys_anything
  entries _ _ e _ := e.2.obeys_anything
  iterator a _ := by
    cases (h.iterator a).items with
    | array items => exact fun v _ => v.obeys_anything
    | string s => trivial
    | map entries => exact fun e _ => e.2.obeys_anything
  cell a _ := (h.cell a).obeys_anything
  newBuffer _ := trivial
  newArray _ := trivial
  newMap _ := trivial
  newIterator _ := trivial
  newCell _ := trivial

theorem ValueLaw.permits_anything (limits : Limits) : anything.Permits limits := by
  constructor <;> intros <;> trivial

/-! ### Operations -/

/-- Whatever an operation on a heap that obeys a law does, the heap obeys it afterwards, and so does the
result in its way. -/
def HeapM.Keeps {α : Type} (law : ValueLaw) (R : α → Prop) (x : HeapM α) : Prop :=
  ∀ h, h.Obeys law → (∀ a h', x h = .ok a h' → R a ∧ h'.Obeys law) ∧ ∀ c h', x h = .error c h' → h'.Obeys law

/-- The result of a computation, if there is one, has a property. -/
def Gives {α : Type} (R : α → Prop) (x : Except Fault α) : Prop := ∀ a, x = .ok a → R a

namespace Gives

variable {β : Type} {R : α → Prop} {R' : β → Prop} {x : Except Fault α}

theorem ok {a : α} (h : R a) : Gives R (.ok a) := by
  rintro b hb
  cases hb
  exact h

theorem error (c : Fault) : Gives R (.error c) := by
  rintro b hb
  cases hb

theorem bind {f : α → Except Fault β} (hx : Gives R x) (hf : ∀ a, R a → Gives R' (f a)) : Gives R' (x >>= f) := by
  cases x with
  | ok a => exact hf a (hx a rfl)
  | error c => exact error c

end Gives

end ScriptEngine
