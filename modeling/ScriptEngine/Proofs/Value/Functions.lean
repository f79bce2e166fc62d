import ScriptEngine.Proofs.Machine.Lockstep
/-!
# Functions among values

Values, heaps and machines in which every function has a property, at any depth. Where a correspondence moves
nothing, what holds only functions that correspond to themselves corresponds to itself
(`Machine.corresponds_self`).
-/

namespace ScriptEngine

variable {P : Function → Prop}

/-- The function that a value is, if it is one, has a property. -/
def Value.EachFunction (P : Function → Prop) : Value → Prop
  | .function f => P f
  | .error v => v.EachFunction P
  | _ => True

/-- All functions among the items of an iterator have a property. -/
def IteratorItems.EachFunction (P : Function → Prop) : IteratorItems → Prop
  | .array items => ∀ v ∈ items, v.EachFunction P
  | .string _ => True
  | .map entries => ∀ e ∈ entries, e.2.EachFunction P

/-- All functions in a heap have a property. -/
structure Heap.EachFunction (P : Function → Prop) (h : Heap) : Prop where
  arrays : ∀ items ∈ h.arrays, ∀ v ∈ items, v.EachFunction P
  maps : ∀ d ∈ h.maps, ∀ e ∈ d.entries, e.2.EachFunction P
  iterators : ∀ it ∈ h.iterators, it.items.EachFunction P
  cells : ∀ v ∈ h.cells, v.EachFunction P

/-- All functions in the heap and the globals of a machine have a property. -/
structure Machine.EachFunction (P : Function → Prop) (m : Machine) : Prop where
  heap : m.heap.EachFunction P
  globals : ∀ v ∈ m.globals, v.EachFunction P

namespace Heap.EachFunction

variable {h : Heap} (hh : h.EachFunction P)

include hh

theorem array (a : Addr) : ∀ v ∈ h.array a, v.EachFunction P := by
  intro v hv
  rw [Heap.array, Array.getD_eq_getD_getElem?] at hv
  cases hitems : h.arrays[a]? with
  | none => simp [hitems] at hv
  | some items =>
    rw [hitems] at hv
    exact hh.arrays items (Array.mem_of_getElem? hitems) v hv

theorem map (a : Addr) : ∀ e ∈ (h.map a).entries, e.2.EachFunction P := by
  intro e he
  rw [Heap.map, Array.getD_eq_getD_getElem?] at he
  cases hentries : h.maps[a]? with
  | none =>
    rw [hentries] at he
    cases he
  | some d =>
    rw [hentries] at he
    exact hh.maps d (Array.mem_of_getElem? hentries) e he

theorem iterator (a : Addr) : (h.iterator a).items.EachFunction P := by
  rw [Heap.iterator, Array.getD_eq_getD_getElem?]
  cases hit : h.iterators[a]? with
  | none => exact fun v hv => absurd hv (Array.not_mem_empty v)
  | some it => exact hh.iterators it (Array.mem_of_getElem? hit)

end Heap.EachFunction

section Mono

variable {Q : Function → Prop} (himp : ∀ f, P f → Q f)

include himp

theorem Value.EachFunction.mono {v : Value} (h : v.EachFunction P) : v.EachFunction Q := by
  induction v with
  | function f => exact himp f h
  | error v ih => exact ih h
  | _ => trivial

theorem Heap.EachFunction.mono {h : Heap} (hh : h.EachFunction P) : h.EachFunction Q where
  arrays items hitems v hv := (hh.arrays items hitems v hv).mono himp
  maps d hd e he := (hh.maps d hd e he).mono himp
  iterators it hit := by
    have hitems := hh.iterators it hit
    cases hkind : it.items with
    | array items =>
      rw [hkind] at hitems
      exact fun v hv => (hitems v hv).mono himp
    | string chars => trivial
    | map entries =>
      rw [hkind] at hitems
      exact fun e he => (hitems e he).mono himp
  cells v hv := (hh.cells v hv).mono himp

theorem Machine.EachFunction.mono {m : Machine} (hm : m.EachFunction P) : m.EachFunction Q where
  heap := hm.heap.mono himp
  globals v hv := (hm.globals v hv).mono himp

end Mono

/-! ### Correspondences that move nothing -/

/-- All places and identities stay as they are. -/
structure Correspondence.IsStill (κ : Correspondence) : Prop where
  ids : κ.ids = id
  buffers : κ.buffers = id
  arrays : κ.arrays = id
  maps : κ.maps = id
  iterators : κ.iterators = id

section Still

variable {κ : Correspondence} (hκ : κ.IsStill)

include hκ

theorem Value.corresponds_self {v : Value} (hv : v.EachFunction fun f => κ.function f f) : v.Corresponds κ v := by
  induction v with
  | error v ih => exact .error (ih hv)
  | function f => exact .function hv
  | bytes a =>
    have h := Value.Corresponds.bytes (κ := κ) a
    rwa [hκ.buffers] at h
  | array a =>
    have h := Value.Corresponds.array (κ := κ) a
    rwa [hκ.arrays] at h
  | frozenArray a =>
    have h := Value.Corresponds.frozenArray (κ := κ) a
    rwa [hκ.arrays] at h
  | map a =>
    have h := Value.Corresponds.map (κ := κ) a
    rwa [hκ.maps] at h
  | frozenMap a =>
    have h := Value.Corresponds.frozenMap (κ := κ) a
    rwa [hκ.maps] at h
  | iterator kind a =>
    have h := Value.Corresponds.iterator (κ := κ) kind a
    rwa [hκ.iterators] at h
  | _ => constructor

theorem Pointwise.corresponds_self {xs : Array Value} (h : ∀ v ∈ xs, v.EachFunction fun f => κ.function f f) :
    Pointwise (Value.Corresponds κ) xs xs :=
  .refl fun v hv => Value.corresponds_self hκ (h v hv)

theorem IteratorItems.corresponds_self {xs : IteratorItems} (h : xs.EachFunction fun f => κ.function f f) :
    xs.Corresponds κ xs := by
  cases xs with
  | array items => exact .array (Pointwise.corresponds_self hκ h)
  | string chars => exact .string chars
  | map entries => exact .map (.refl fun e he => ⟨rfl, Value.corresponds_self hκ (h e he)⟩)

theorem Heap.corresponds_self {h : Heap} (hh : h.EachFunction fun f => κ.function f f) : h.Corresponds κ h where
  buffer a := by rw [hκ.buffers]; rfl
  array a := by
    rw [hκ.arrays]
    exact Pointwise.corresponds_self hκ (hh.array a)
  map a := by
    rw [hκ.maps]
    exact List.forall₂_same.2 fun e he => ⟨rfl, Value.corresponds_self hκ (hh.map a e he)⟩
  items a := by
    rw [hκ.iterators]
    exact IteratorItems.corresponds_self hκ (hh.iterator a)
  moved a := by rw [hκ.iterators]; rfl
  newBuffer k := by rw [hκ.buffers]; rfl
  newArray k := by rw [hκ.arrays]; rfl
  newMap k := by rw [hκ.maps]; rfl
  newIterator k := by rw [hκ.iterators]; rfl

theorem Machine.corresponds_self {m : Machine} (hm : m.EachFunction fun f => κ.function f f) : m.Corresponds κ m where
  heap := Heap.corresponds_self hκ hm.heap
  contents := Pointwise.corresponds_self hκ hm.heap.cells
  newFunction k := by rw [hκ.ids]; rfl
  globals := Pointwise.corresponds_self hκ hm.globals
  token := rfl

end Still

end ScriptEngine
