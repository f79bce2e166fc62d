import Mathlib.Logic.Relation
import ScriptEngine.Proofs.Value.Laws
/-!
# What values hold

A value holds others, at any depth: the items of arrays, the entries of maps, what errors wrap, what is
left of iterators, and the variables that functions captured (`Heap.Reaches`). A rule that looks at one
value at a time, together with the values that are there at the start, makes a law (`ValueRule.law`): its
places are those that can be reached from the start, and all places to come.
-/

namespace ScriptEngine

namespace Heap

/-- A value directly holds another one. -/
inductive Part (h : Heap) : Value → Value → Prop where
  | item {a : Addr} {v : Value} : v ∈ h.array a → Part h (.array a) v
  | frozenItem {a : Addr} {v : Value} : v ∈ h.array a → Part h (.frozenArray a) v
  | entry {a : Addr} {e : String × Value} : e ∈ (h.map a).entries → Part h (.map a) e.2
  | frozenEntry {a : Addr} {e : String × Value} : e ∈ (h.map a).entries → Part h (.frozenMap a) e.2
  | error (v : Value) : Part h (.error v) v
  | iterated {kind : IteratorKind} {a : Addr} {items : Array Value} {v : Value} :
      (h.iterator a).items = .array items → v ∈ items → Part h (.iterator kind a) v
  | iteratedEntry {kind : IteratorKind} {a : Addr} {entries : Array (String × Value)} {e : String × Value} :
      (h.iterator a).items = .map entries → e ∈ entries → Part h (.iterator kind a) e.2
  | captured {f : Function} {c : Addr} : c ∈ f.captured → Part h (.function f) (h.cell c)

/-- A value is or holds another one, at any depth. -/
def Reaches (h : Heap) : Value → Value → Prop := Relation.ReflTransGen h.Part

end Heap

/-- What a rule asks of each value. -/
structure ValueRule where
  string : String → Prop
  /-- The sizes of bytes and of arrays. -/
  bufferSize : Nat → Prop
  arraySize : Nat → Prop
  function : Function → Prop
  /-- The functions that may be active. -/
  code : Function → Prop
  native : Native → Prop
  active : ∀ f, function f → code f

/-- A value follows a rule; what it holds is not looked at. -/
def Value.Passes (rule : ValueRule) (h : Heap) : Value → Prop
  | .string s => rule.string s
  | .bytes a => rule.bufferSize (h.buffer a).size
  | .array a | .frozenArray a => rule.arraySize (h.array a).size
  | .native f => rule.native f
  | .function f => rule.function f
  | _ => True

namespace ValueRule

variable (rule : ValueRule) (h : Heap) (roots : Value → Prop)

/-- Some value at the start reaches a value. -/
def Meets (v : Value) : Prop := ∃ root, roots root ∧ h.Reaches root v

/-- The places of variables that functions captured at the start, and all that are to come. -/
def Cells (a : Addr) : Prop := (∃ f, Meets h roots (.function f) ∧ a ∈ f.captured) ∨ h.cells.size ≤ a

/-- Values follow a rule and are kept at places that can be reached from the start or are new. -/
def law : ValueLaw where
  string := rule.string
  bufferSize := rule.bufferSize
  arraySize := rule.arraySize
  function f := rule.function f ∧ ∀ a ∈ f.captured, Cells h roots a
  code f := rule.code f ∧ ∀ a ∈ f.captured, Cells h roots a
  native := rule.native
  buffers a := Meets h roots (.bytes a) ∨ h.buffers.size ≤ a
  arrays a := Meets h roots (.array a) ∨ Meets h roots (.frozenArray a) ∨ h.arrays.size ≤ a
  maps a := Meets h roots (.map a) ∨ Meets h roots (.frozenMap a) ∨ h.maps.size ≤ a
  iterators a := (∃ kind, Meets h roots (.iterator kind a)) ∨ h.iterators.size ≤ a
  cells := Cells h roots
  active f hf := ⟨rule.active f hf.1, hf.2⟩
  captured _ hf := hf.2

variable {rule h roots}

theorem Meets.part {v w : Value} (hv : Meets h roots v) (hpart : h.Part v w) : Meets h roots w := by
  obtain ⟨root, hroot, hreaches⟩ := hv
  exact ⟨root, hroot, hreaches.tail hpart⟩

section Start

variable (hrule : ∀ v, Meets h roots v → v.Passes rule h)

include hrule

/-- What is reached from the start obeys the law. -/
theorem obeys_of_meets {v : Value} (hv : Meets h roots v) : v.Obeys (rule.law h roots) := by
  have hpasses := hrule v hv
  induction v with
  | bytes a | array a => exact .inl hv
  | frozenArray a => exact .inr (.inl hv)
  | map a => exact .inl hv
  | frozenMap a => exact .inr (.inl hv)
  | iterator kind a => exact .inl ⟨kind, hv⟩
  | error v ih => exact ih (hv.part (.error v)) (hrule _ (hv.part (.error v)))
  | function f => exact ⟨hpasses, fun a ha => .inl ⟨f, hv, ha⟩⟩
  | _ => exact hpasses

/-- The heap at the start obeys the law, if nothing is small enough for it. -/
theorem obeys_heap (hbytes : rule.bufferSize 0) (harray : rule.arraySize 0) : h.Obeys (rule.law h roots) where
  buffer a ha := by
    rcases ha with ha | ha
    · exact hrule _ ha
    · rw [Heap.buffer, Array.getD_eq_getD_getElem?, Array.getElem?_eq_none ha]
      exact hbytes
  array a ha := by
    rcases ha with ha | ha | ha
    · exact hrule _ ha
    · exact hrule _ ha
    · rw [Heap.array, Array.getD_eq_getD_getElem?, Array.getElem?_eq_none ha]
      exact harray
  items a ha v hv := by
    rcases ha with ha | ha | ha
    · exact obeys_of_meets hrule (ha.part (.item hv))
    · exact obeys_of_meets hrule (ha.part (.frozenItem hv))
    · rw [Heap.array, Array.getD_eq_getD_getElem?, Array.getElem?_eq_none ha] at hv
      simp at hv
  entries a ha e he := by
    rcases ha with ha | ha | ha
    · exact obeys_of_meets hrule (ha.part (.entry he))
    · exact obeys_of_meets hrule (ha.part (.frozenEntry he))
    · rw [Heap.map, Array.getD_eq_getD_getElem?, Array.getElem?_eq_none ha] at he
      cases he
  iterator a ha := by
    rcases ha with ⟨kind, ha⟩ | ha
    · cases hitems : (h.iterator a).items with
      | array items => exact fun v hv => obeys_of_meets hrule (ha.part (.iterated hitems hv))
      | string chars => exact trivial
      | map entries => exact fun e he => obeys_of_meets hrule (ha.part (.iteratedEntry hitems he))
    · rw [Heap.iterator, Array.getD_eq_getD_getElem?, Array.getElem?_eq_none ha]
      exact IteratorItems.obeys_default
  cell a ha := by
    rcases ha with ⟨f, hf, ha⟩ | ha
    · exact obeys_of_meets hrule (hf.part (.captured ha))
    · rw [Heap.cell, Array.getD_eq_getD_getElem?, Array.getElem?_eq_none ha]
      exact trivial
  newBuffer k := .inr (Nat.le_add_right _ _)
  newArray k := .inr (.inr (Nat.le_add_right _ _))
  newMap k := .inr (.inr (Nat.le_add_right _ _))
  newIterator k := .inr (Nat.le_add_right _ _)
  newCell k := .inr (Nat.le_add_right _ _)

end Start

end ValueRule

/-! ### What a law says about parts -/

variable {law : ValueLaw} {h : Heap} {v w : Value}

theorem Value.Obeys.part (hv : v.Obeys law) (hh : h.Obeys law) (hpart : h.Part v w) : w.Obeys law := by
  cases hpart with
  | item hw | frozenItem hw => exact hh.items _ hv w hw
  | entry he | frozenEntry he => exact hh.entries _ hv _ he
  | error => exact hv
  | iterated hitems hw =>
    have hiterator := hh.iterator _ hv
    rw [hitems] at hiterator
    exact hiterator w hw
  | iteratedEntry hitems he =>
    have hiterator := hh.iterator _ hv
    rw [hitems] at hiterator
    exact hiterator _ he
  | captured hc => exact hh.cell _ (law.captured _ (law.active _ hv) _ hc)

theorem Value.Obeys.reaches (hv : v.Obeys law) (hh : h.Obeys law) (hreaches : h.Reaches v w) : w.Obeys law := by
  induction hreaches with
  | refl => exact hv
  | tail _ hpart ih => exact ih.part hh hpart

/-- What obeys the law of a rule follows the rule. -/
theorem Value.Obeys.passes {rule : ValueRule} {h0 : Heap} {roots : Value → Prop} (hv : v.Obeys (rule.law h0 roots))
    (hh : h.Obeys (rule.law h0 roots)) : v.Passes rule h := by
  cases v with
  | bytes a => exact hh.buffer a hv
  | array a | frozenArray a => exact hh.array a hv
  | function f => exact hv.1
  | string s | native f => exact hv
  | _ => exact trivial

end ScriptEngine
