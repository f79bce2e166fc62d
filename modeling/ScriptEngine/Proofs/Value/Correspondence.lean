import ScriptEngine.Limits
import ScriptEngine.Proofs.Value.Bisimilarity
import ScriptEngine.Value.Access
/-!
# Corresponding values

Scripts see neither where a container is kept nor what a compiled function is made of. A
`Correspondence` says which functions of two heaps play the same part and where the contents of the
first heap are found in the second one. This module extends it to values, containers and heaps, and
shows that values that correspond are equal in pairs, have the same text and the same truth
(`Value.Corresponds.equal_eq`, `Value.Corresponds.plainText_eq`, `Value.Corresponds.isFalsy_eq`).
-/

namespace ScriptEngine

open ContainerPair

variable {c : Container} {p : ContainerPair} {h1 h2 : Heap} {xs ys : IteratorItems} {path : List ContainerPair}
  {α β : Type} {v v' w w' : Value} {same same' : Value → Value → Bool}

/-- How the values of one heap correspond to those of another one. -/
structure Correspondence where
  /-- Which functions correspond. -/
  function : Function → Function → Prop
  /-- The offsets at which functions that correspond are executed. -/
  offset : Function → Function → Nat → Prop
  /-- The identities of functions and the places of contents in the second heap. -/
  ids : Nat → Nat
  buffers : Addr → Addr
  arrays : Addr → Addr
  maps : Addr → Addr
  iterators : Addr → Addr
  /-- The faults of the first side that excuse it: the second side may do anything then. -/
  excused : Fault → Prop
  id_eq : ∀ f g, function f g → g.id = ids f.id
  ids_inj : ∀ i j, ids i = ids j → i = j
  buffers_inj : ∀ a b, buffers a = buffers b → a = b
  arrays_inj : ∀ a b, arrays a = arrays b → a = b
  maps_inj : ∀ a b, maps a = maps b → a = b
  iterators_inj : ∀ a b, iterators a = iterators b → a = b

variable {κ : Correspondence}

/-- The same value up to functions and places. -/
inductive Value.Corresponds (κ : Correspondence) : Value → Value → Prop where
  | undefined : Corresponds κ .undefined .undefined
  | int (v : Int64) : Corresponds κ (.int v) (.int v)
  | float (v : Float) : Corresponds κ (.float v) (.float v)
  | char (c : Char) : Corresponds κ (.char c) (.char c)
  | bool (b : Bool) : Corresponds κ (.bool b) (.bool b)
  | string (s : String) : Corresponds κ (.string s) (.string s)
  | bytes (a : Addr) : Corresponds κ (.bytes a) (.bytes (κ.buffers a))
  | array (a : Addr) : Corresponds κ (.array a) (.array (κ.arrays a))
  | frozenArray (a : Addr) : Corresponds κ (.frozenArray a) (.frozenArray (κ.arrays a))
  | map (a : Addr) : Corresponds κ (.map a) (.map (κ.maps a))
  | frozenMap (a : Addr) : Corresponds κ (.frozenMap a) (.frozenMap (κ.maps a))
  | time (t : Instant) : Corresponds κ (.time t) (.time t)
  | error {v w : Value} (h : Corresponds κ v w) : Corresponds κ (.error v) (.error w)
  | native (f : Native) : Corresponds κ (.native f) (.native f)
  | function {f g : Function} (h : κ.function f g) : Corresponds κ (.function f) (.function g)
  | iterator (kind : IteratorKind) (a : Addr) : Corresponds κ (.iterator kind a) (.iterator kind (κ.iterators a))

/-! ### Sequences -/

/-- Two arrays have related items at every place. -/
def Pointwise {α β : Type} (R : α → β → Prop) (xs : Array α) (ys : Array β) : Prop :=
  List.Forall₂ R xs.toList ys.toList

namespace Pointwise

variable {R : α → β → Prop} {xs xs' : Array α} {ys ys' : Array β} {x : α} {y : β}

theorem empty : Pointwise R #[] #[] := List.Forall₂.nil

section

variable (h : Pointwise R xs ys)
include h

theorem size_eq : xs.size = ys.size := by
  simpa using List.Forall₂.length_eq h

theorem push (hx : R x y) : Pointwise R (xs.push x) (ys.push y) := by
  rw [Pointwise, Array.toList_push, Array.toList_push]
  exact List.rel_append h (.cons hx .nil)

theorem append (h' : Pointwise R xs' ys') : Pointwise R (xs ++ xs') (ys ++ ys') := by
  rw [Pointwise, Array.toList_append, Array.toList_append]
  exact List.rel_append h h'

theorem append_list {l : List α} {l' : List β} (hl : List.Forall₂ R l l') : Pointwise R (xs ++ l) (ys ++ l') := by
  rw [Pointwise, Array.toList_appendList, Array.toList_appendList]
  exact List.rel_append h hl

theorem extract (i j : Nat) : Pointwise R (xs.extract i j) (ys.extract i j) := by
  rw [Pointwise, Array.toList_extract, Array.toList_extract]
  exact List.forall₂_take _ (List.forall₂_drop _ h)

theorem getElem? (i : Nat) : Option.Rel R xs[i]? ys[i]? := by
  rw [← Array.getElem?_toList, ← Array.getElem?_toList]
  rw [Pointwise] at h
  generalize xs.toList = l, ys.toList = l' at h
  induction h generalizing i with
  | nil => exact .none
  | cons hx _ ih =>
    cases i with
    | zero => exact .some hx
    | succ i => exact ih i

theorem getD (i : Nat) (hx : R x y) : R (xs.getD i x) (ys.getD i y) := by
  have hitem := h.getElem? i
  rw [Array.getD_eq_getD_getElem?, Array.getD_eq_getD_getElem?]
  generalize xs[i]? = a, ys[i]? = b at hitem
  cases hitem with
  | none => exact hx
  | some h => exact h

end

/-- Arrays of one size with related items at every place. -/
theorem of_getElem? (hsize : xs.size = ys.size) (h : ∀ i : Nat, Option.Rel R xs[i]? ys[i]?) : Pointwise R xs ys := by
  rw [Pointwise, List.forall₂_iff_get]
  refine ⟨by simpa using hsize, fun i hi hi' => ?_⟩
  have hrel := h i
  rw [Array.getElem?_eq_getElem hi, Array.getElem?_eq_getElem hi'] at hrel
  cases hrel with
  | some hrel => simpa using hrel

section

variable (h : Pointwise R xs ys)
include h

theorem setIfInBounds (i : Nat) (hx : R x y) : Pointwise R (xs.setIfInBounds i x) (ys.setIfInBounds i y) := by
  refine of_getElem? (by simpa using h.size_eq) fun j => ?_
  rw [Array.getElem?_setIfInBounds, Array.getElem?_setIfInBounds, h.size_eq]
  split
  · split
    · exact .some hx
    · exact .none
  · exact h.getElem? j

theorem shrink (n : Nat) : Pointwise R (xs.shrink n) (ys.shrink n) := by
  rw [Array.shrink_eq_take, Array.shrink_eq_take]
  exact h.extract _ _

theorem pop : Pointwise R xs.pop ys.pop := by
  rw [Pointwise, Array.toList_pop, Array.toList_pop, List.dropLast_eq_take, List.dropLast_eq_take, h.length_eq]
  exact List.forall₂_take _ h

theorem back? : Option.Rel R xs.back? ys.back? := by
  simp only [Array.back?_eq_getElem?, h.size_eq]
  exact h.getElem? _

theorem isEmpty_eq : xs.isEmpty = ys.isEmpty := by
  simp only [Array.isEmpty, h.size_eq]

end

theorem replicate (n : Nat) (hx : R x y) : Pointwise R (Array.replicate n x) (Array.replicate n y) := by
  induction n with
  | zero => exact .nil
  | succ n ih => exact .cons hx ih

/-- Items that are related to themselves. -/
theorem refl {R : α → α → Prop} (h : ∀ x ∈ xs, R x x) : Pointwise R xs xs :=
  List.forall₂_same.2 fun x hx => h x (Array.mem_toList_iff.1 hx)

theorem and {P : α → Prop} (h : Pointwise R xs ys) (hp : ∀ x ∈ xs, P x) : Pointwise (fun x y => P x ∧ R x y) xs ys :=
  (List.forall₂_and_left _ _).2 ⟨fun x hx => hp x (Array.mem_toList_iff.1 hx), h⟩

theorem forall_left {P : α → Prop} (h : Pointwise (fun x y => P x ∧ R x y) xs ys) : ∀ x ∈ xs, P x :=
  fun x hx => ((List.forall₂_and_left _ _).1 h).1 x (Array.mem_toList_iff.2 hx)

end Pointwise

/-! ### Dictionaries -/

/-- Entries with one key and related values. -/
def EntriesMatch {α β : Type} (R : α → β → Prop) (e : String × α) (e' : String × β) : Prop :=
  e.1 = e'.1 ∧ R e.2 e'.2

/-- Two dictionaries have related values under the same keys, in the same order. -/
def Dict.Pointwise {α β : Type} (R : α → β → Prop) (d : Dict α) (d' : Dict β) : Prop :=
  List.Forall₂ (EntriesMatch R) d.entries d'.entries

namespace Dict.Pointwise

variable {R : α → β → Prop} {d : Dict α} {d' : Dict β} {v : α} {w : β}

theorem empty : Dict.Pointwise R ({}) ({}) := List.Forall₂.nil

section

variable (h : Dict.Pointwise R d d')
include h

theorem size_eq : d.size = d'.size := List.Forall₂.length_eq h

theorem isEmpty_eq : d.isEmpty = d'.isEmpty := by
  obtain ⟨entries, hnodup⟩ := d
  obtain ⟨entries', hnodup'⟩ := d'
  cases h <;> rfl

theorem find? (key : String) : Option.Rel R (d.find? key) (d'.find? key) := by
  rw [Dict.Pointwise] at h
  rw [Dict.find?, Dict.find?]
  generalize d.entries = es, d'.entries = es' at h
  induction h with
  | nil => exact .none
  | @cons e e' es es' he _ ih =>
    rcases e, e', he with ⟨⟨k, v⟩, ⟨k', v'⟩, rfl, hv⟩
    simp only [Entries.find?]
    split
    · exact .some hv
    · exact ih

theorem insert (key : String) (hv : R v w) : Dict.Pointwise R (d.insert key v) (d'.insert key w) := by
  rw [Dict.Pointwise] at h
  show List.Forall₂ (EntriesMatch R) (Entries.insert key v d.entries) (Entries.insert key w d'.entries)
  generalize d.entries = es, d'.entries = es' at h
  induction h with
  | nil => exact .cons ⟨rfl, hv⟩ .nil
  | @cons e e' es es' he hes ih =>
    rcases e, e', he with ⟨⟨k, v⟩, ⟨k', v'⟩, rfl, hv'⟩
    simp only [Entries.insert]
    split
    · exact .cons ⟨rfl, hv⟩ hes
    · exact .cons ⟨rfl, hv'⟩ ih

theorem erase (key : String) : Dict.Pointwise R (d.erase key) (d'.erase key) := by
  rw [Dict.Pointwise] at h
  show List.Forall₂ (EntriesMatch R) (Entries.erase key d.entries) (Entries.erase key d'.entries)
  generalize d.entries = es, d'.entries = es' at h
  induction h with
  | nil => exact .nil
  | @cons e e' es es' he hes ih =>
    rcases e, e', he with ⟨⟨k, v⟩, ⟨k', v'⟩, rfl, hv'⟩
    simp only [Entries.erase]
    split
    · exact hes
    · exact .cons ⟨rfl, hv'⟩ ih

end

theorem ofList {es : List (String × α)} {es' : List (String × β)} (h : List.Forall₂ (EntriesMatch R) es es') :
    Dict.Pointwise R (Dict.ofList es) (Dict.ofList es') := by
  suffices ∀ d d', Dict.Pointwise R d d' → Dict.Pointwise R (es.foldl (fun d e => d.insert e.1 e.2) d)
      (es'.foldl (fun d e => d.insert e.1 e.2) d') from this {} {} empty
  induction h with
  | nil => exact fun d d' hd => hd
  | @cons e e' es es' he _ ih =>
    intro d d' hd
    rcases e, e', he with ⟨⟨k, v⟩, ⟨k', v'⟩, rfl, hv⟩
    exact ih _ _ (hd.insert k hv)

end Dict.Pointwise

/-! ### Heaps -/

/-- Iterators over related items at the same place. -/
inductive IteratorItems.Corresponds (κ : Correspondence) : IteratorItems → IteratorItems → Prop where
  | array {xs ys : Array Value} (h : Pointwise (Value.Corresponds κ) xs ys) : Corresponds κ (.array xs) (.array ys)
  | string (chars : Array Char) : Corresponds κ (.string chars) (.string chars)
  | map {xs ys : Array (String × Value)} (h : Pointwise (EntriesMatch (Value.Corresponds κ)) xs ys) :
      Corresponds κ (.map xs) (.map ys)

theorem IteratorItems.Corresponds.size_eq (h : xs.Corresponds κ ys) : xs.size = ys.size := by
  cases h with
  | array h => exact Pointwise.size_eq h
  | string => rfl
  | map h => exact Pointwise.size_eq h

/-- The contents of the first heap are found in the second one, and new contents will be. -/
structure Heap.Corresponds (κ : Correspondence) (h1 h2 : Heap) : Prop where
  buffer : ∀ a, h2.buffer (κ.buffers a) = h1.buffer a
  array : ∀ a, Pointwise (Value.Corresponds κ) (h1.array a) (h2.array (κ.arrays a))
  map : ∀ a, Dict.Pointwise (Value.Corresponds κ) (h1.map a) (h2.map (κ.maps a))
  items : ∀ a, (h1.iterator a).items.Corresponds κ (h2.iterator (κ.iterators a)).items
  moved : ∀ a, (h2.iterator (κ.iterators a)).moved = (h1.iterator a).moved
  newBuffer : ∀ k, κ.buffers (h1.buffers.size + k) = h2.buffers.size + k
  newArray : ∀ k, κ.arrays (h1.arrays.size + k) = h2.arrays.size + k
  newMap : ∀ k, κ.maps (h1.maps.size + k) = h2.maps.size + k
  newIterator : ∀ k, κ.iterators (h1.iterators.size + k) = h2.iterators.size + k

/-! ### Values -/

namespace Value.Corresponds

theorem typeName_eq (h : v.Corresponds κ w) : w.typeName = v.typeName := by
  cases h with
  | iterator kind a => cases kind <;> rfl
  | _ => rfl

theorem unwrap (h : v.Corresponds κ w) : w.unwrap.1 = v.unwrap.1 ∧ v.unwrap.2.Corresponds κ w.unwrap.2 := by
  induction h with
  | error _ ih => exact ⟨congrArg (· + 1) ih.1, ih.2⟩
  | function h => exact ⟨rfl, .function h⟩
  | _ => exact ⟨rfl, by constructor⟩

theorem wrap (h : v.Corresponds κ w) (n : Nat) : (Value.wrap n v).Corresponds κ (Value.wrap n w) := by
  induction n with
  | zero => exact h
  | succ n ih => exact .error ih

theorem isFalsy_eq (hh : h1.Corresponds κ h2) (h : v.Corresponds κ w) : w.isFalsy h2 = v.isFalsy h1 := by
  cases h with
  | bytes a => simp only [isFalsy, hh.buffer]
  | array a | frozenArray a => simp only [isFalsy, (hh.array a).isEmpty_eq]
  | map a | frozenMap a => simp only [isFalsy, (hh.map a).isEmpty_eq]
  | _ => rfl

end Value.Corresponds

/-! ### Equality -/

/-- The corresponding pair of containers. -/
def ContainerPair.moved (κ : Correspondence) : ContainerPair → ContainerPair
  | .arrays a b => .arrays (κ.arrays a) (κ.arrays b)
  | .maps a b => .maps (κ.maps a) (κ.maps b)

theorem ContainerPair.moved_inj {q : ContainerPair} (h : p.moved κ = q.moved κ) : p = q := by
  cases p <;> cases q <;> simp only [moved, arrays.injEq, maps.injEq, reduceCtorEq] at h
  · rw [κ.arrays_inj _ _ h.1, κ.arrays_inj _ _ h.2]
  · rw [κ.maps_inj _ _ h.1, κ.maps_inj _ _ h.2]

theorem ContainerPair.moved_mem_iff : p.moved κ ∈ path.map (moved κ) ↔ p ∈ path :=
  List.mem_map_of_injective fun _ _ => moved_inj

namespace Equality

variable {a b : Addr}

section

variable (hsame : ∀ v w v' w', v.Corresponds κ w → v'.Corresponds κ w' → same' w w' = same v v')
include hsame

theorem sameItems_eq {xs ys xs' ys' : List Value}
    (h : List.Forall₂ (Value.Corresponds κ) xs xs') (h' : List.Forall₂ (Value.Corresponds κ) ys ys') :
    sameItems same' xs' ys' = sameItems same xs ys := by
  induction h generalizing ys ys' with
  | nil => cases h' <;> rfl
  | cons hx _ ih =>
    cases h' with
    | nil => rfl
    | cons hy hys => simp only [sameItems, hsame _ _ _ _ hx hy, ih hys]

theorem sameEntries_eq {es es' : List (String × Value)} {d d' : Dict Value}
    (h : List.Forall₂ (EntriesMatch (Value.Corresponds κ)) es es') (hd : Dict.Pointwise (Value.Corresponds κ) d d') :
    sameEntries same' es' d' = sameEntries same es d := by
  rw [sameEntries, sameEntries]
  induction h with
  | nil => rfl
  | @cons e e' _ _ he _ ih =>
    rcases e, e', he with ⟨⟨k, x⟩, ⟨k', x'⟩, rfl, hx⟩
    rw [List.all_cons, List.all_cons]
    congr 1
    have hfind := hd.find? k
    generalize d.find? k = y, d'.find? k = y' at hfind
    cases hfind with
    | none => rfl
    | some hy => exact hsame _ _ _ _ hx hy

end

theorem beq_eq {f : Addr → Addr} (hf : ∀ a b, f a = f b → a = b) : (f a == f b) = (a == b) := by
  rw [Bool.eq_iff_iff, beq_iff_eq, beq_iff_eq]
  exact ⟨hf a b, congrArg f⟩

variable {same same' : List ContainerPair → Value → Value → Bool} (hh : h1.Corresponds κ h2)
  (hsame : ∀ path v w v' w', v.Corresponds κ w → v'.Corresponds κ w' →
    same' (path.map (moved κ)) w w' = same path v v')

include hh hsame

theorem sameArrays_eq : sameArrays h2 (path.map (moved κ)) (κ.arrays a) (κ.arrays b) same' =
    sameArrays h1 path a b same := by
  have hpath : arrays (κ.arrays a) (κ.arrays b) ∈ path.map (moved κ) ↔
      arrays a b ∈ path := moved_mem_iff (p := .arrays a b)
  have hitems := sameItems_eq (hsame (.arrays a b :: path)) (hh.array a) (hh.array b)
  rw [List.map_cons, moved] at hitems
  simp only [sameArrays, hpath, ← (hh.array a).size_eq, ← (hh.array b).size_eq, hitems]

theorem sameMaps_eq : sameMaps h2 (path.map (moved κ)) (κ.maps a) (κ.maps b) same' =
    sameMaps h1 path a b same := by
  have hpath : maps (κ.maps a) (κ.maps b) ∈ path.map (moved κ) ↔
      maps a b ∈ path := moved_mem_iff (p := .maps a b)
  have hentries := sameEntries_eq (hsame (.maps a b :: path)) (hh.map a) (hh.map b)
  rw [List.map_cons, moved] at hentries
  simp only [sameMaps, hpath, ← (hh.map a).size_eq, ← (hh.map b).size_eq, hentries]

omit hsame

theorem sameAtoms_eq (hv : v.Corresponds κ w) (hv' : v'.Corresponds κ w') :
    sameAtoms h2 w w' = sameAtoms h1 v v' := by
  cases hv with
  | bytes a =>
    cases hv' with
    | bytes b => simp only [sameAtoms, hh.buffer]
    | _ => rfl
  | function hf =>
    cases hv' with
    | function hg => simp only [sameAtoms, κ.id_eq _ _ hf, κ.id_eq _ _ hg, beq_eq κ.ids_inj]
    | _ => rfl
  | iterator kind a =>
    cases hv' with
    | iterator kind' b => simp only [sameAtoms, beq_eq κ.iterators_inj]
    | _ => rfl
  | _ => cases hv' <;> rfl

theorem sameIn_eq (fuel : Nat) (path : List ContainerPair) (v w v' w' : Value) (hv : v.Corresponds κ w)
    (hv' : v'.Corresponds κ w') : sameIn h2 fuel (path.map (moved κ)) w w' = sameIn h1 fuel path v v' := by
  induction fuel generalizing path v w v' w' with
  | zero =>
    rw [sameIn, sameIn]
    simp only [hv.unwrap.1, hv'.unwrap.1, sameAtoms_eq hh hv.unwrap.2 hv'.unwrap.2]
  | succ fuel ih =>
    rw [sameIn, sameIn]
    simp only [hv.unwrap.1, hv'.unwrap.1]
    congr 1
    have hv := hv.unwrap.2
    have hv' := hv'.unwrap.2
    generalize v.unwrap.2 = v, w.unwrap.2 = w at hv
    generalize v'.unwrap.2 = v', w'.unwrap.2 = w' at hv'
    have hatoms := sameAtoms_eq hh hv hv'
    cases hv <;> cases hv' <;>
      first
      | exact hatoms
      | exact sameArrays_eq hh ih
      | exact sameMaps_eq hh ih
      | exact congrArg₂ (· || ·) (beq_eq κ.arrays_inj) (sameArrays_eq hh ih)
      | exact congrArg₂ (· || ·) (beq_eq κ.maps_inj) (sameMaps_eq hh ih)

end Equality

theorem Value.Corresponds.equal_eq (hh : h1.Corresponds κ h2) (hv : v.Corresponds κ w) (hv' : v'.Corresponds κ w') :
    w.equal h2 w' = v.equal h1 v' := by
  have hsame := Equality.sameIn_eq hh (max h1.pairs h2.pairs) [] v w v' w' hv hv'
  rwa [List.map_nil, Equality.sameIn_of_pairs_le (Nat.le_max_right ..),
    Equality.sameIn_of_pairs_le (Nat.le_max_left ..)] at hsame

/-! ### Text -/

/-- Bounds are the same, or the smaller one on the first side is an excuse for failing. -/
def Correspondence.Bounds (κ : Correspondence) (f : Fault) (m n : Nat) : Prop :=
  m = n ∨ (m ≤ n ∧ κ.excused f)

namespace Correspondence.Bounds

variable {f : Fault} {m n : Nat}

theorem sub (h : κ.Bounds f m n) (k : Nat) : κ.Bounds f (m - k) (n - k) := by
  rcases h with rfl | ⟨hle, hexcused⟩
  · exact .inl rfl
  · exact .inr ⟨Nat.sub_le_sub_right hle k, hexcused⟩

end Correspondence.Bounds

/-- The corresponding container. -/
def Container.moved (κ : Correspondence) : Container → Container
  | .array a => .array (κ.arrays a)
  | .map a => .map (κ.maps a)

theorem Container.moved_inj {d : Container} (h : c.moved κ = d.moved κ) : c = d := by
  cases c <;> cases d <;> simp only [moved, array.injEq, map.injEq, reduceCtorEq] at h
  · rw [κ.arrays_inj _ _ h]
  · rw [κ.maps_inj _ _ h]

theorem Container.moved_mem_iff {path : List Container} : c.moved κ ∈ path.map (Container.moved κ) ↔ c ∈ path :=
  List.mem_map_of_injective fun _ _ => moved_inj

namespace Render

variable {b : Option Nat}

theorem atomText_eq (hh : h1.Corresponds κ h2) (h : v.Corresponds κ w) : w.atomText h2 = v.atomText h1 := by
  cases h with
  | bytes a => simp only [Value.atomText, hh.buffer]
  | iterator kind a => cases kind <;> rfl
  | _ => rfl

/-- Values that correspond are rendered as the same text. -/
theorem renderInto_eq (hh : h1.Corresponds κ h2) (fuel : Nat) (path : List Container) (v w : Value)
    (hv : v.Corresponds κ w) :
    renderInto h2 b fuel (path.map (Container.moved κ)) w = renderInto h1 b fuel path v := by
  induction fuel generalizing path v w with
  | zero =>
    funext out
    rw [renderInto, renderInto]
    simp only [hv.unwrap.1, atomText_eq hh hv.unwrap.2]
  | succ fuel ih =>
    funext out
    rw [renderInto, renderInto]
    simp only [hv.unwrap.1]
    refine congrArg (Option.bind _) (funext fun out => ?_)
    have hv := hv.unwrap.2
    generalize v.unwrap.2 = v, w.unwrap.2 = w at hv
    have hatom := atomText_eq hh hv
    cases hv with
    | array a | frozenArray a =>
      have hpath : Container.array (κ.arrays a) ∈ path.map (Container.moved κ) ↔ Container.array a ∈ path :=
        Container.moved_mem_iff (c := .array a)
      have hitems := separated_eq (b := b) (ih (.array a :: path)) (hh.array a) false
      rw [List.map_cons, Container.moved] at hitems
      simp only [hpath, hatom, hitems]
    | map a | frozenMap a =>
      have hpath : Container.map (κ.maps a) ∈ path.map (Container.moved κ) ↔ Container.map a ∈ path :=
        Container.moved_mem_iff (c := .map a)
      have hentry : ∀ e e', EntriesMatch (Value.Corresponds κ) e e' →
          (fun out => (emit b (e'.1 ++ ": ") out).bind
            (renderInto h2 b fuel (.map (κ.maps a) :: path.map (Container.moved κ)) e'.2)) =
          fun out => (emit b (e.1 ++ ": ") out).bind (renderInto h1 b fuel (.map a :: path) e.2) := by
        intro e e' he
        have hvalue := ih (.map a :: path) e.2 e'.2 he.2
        rw [List.map_cons, Container.moved] at hvalue
        rw [he.1, hvalue]
      simp only [hpath, hatom, separated_eq hentry (hh.map a)]
    | _ => exact congrArg (emit b · out) hatom

end Render

namespace Value.Corresponds

/-- The fuel that either heap gives is enough. -/
theorem display_eq (hh : h1.Corresponds κ h2) (hv : v.Corresponds κ w) : w.display h2 = v.display h1 := by
  have htext := congrFun (Render.renderInto_eq (b := none) hh (max h1.depth h2.depth) [] v w hv) ""
  rw [List.map_nil, Render.renderInto_of_depth_le (Nat.le_max_left ..),
    Render.renderInto_of_depth_le (Nat.le_max_right ..)] at htext
  rw [display, display, htext]

theorem plainText_eq (hh : h1.Corresponds κ h2) (hv : v.Corresponds κ w) : w.plainText h2 = v.plainText h1 := by
  have hdisplay := display_eq hh hv
  cases hv with
  | string s => rfl
  | _ => exact hdisplay

end Value.Corresponds

/-! ### Nothing moved -/

namespace Correspondence

/-- Everything corresponds to itself. -/
def unmoved (excused : Fault → Prop) : Correspondence where
  function f g := f = g
  offset _ _ _ := True
  ids := id
  buffers := id
  arrays := id
  maps := id
  iterators := id
  excused := excused
  id_eq := fun _ _ h => congrArg Function.id h.symm
  ids_inj := fun _ _ h => h
  buffers_inj := fun _ _ h => h
  arrays_inj := fun _ _ h => h
  maps_inj := fun _ _ h => h
  iterators_inj := fun _ _ h => h

end Correspondence

section Unmoved

open Correspondence (unmoved)

variable {excused : Fault → Prop}

theorem Value.corresponds_unmoved_iff : v.Corresponds (unmoved excused) w ↔ v = w := by
  constructor
  · intro h
    induction h with
    | error _ ih => rw [ih]
    | function h => exact congrArg Value.function h
    | _ => rfl
  · rintro rfl
    induction v with
    | error v ih => exact .error ih
    | function f => exact .function rfl
    | _ => constructor

theorem Pointwise.eq_iff {R : α → α → Prop} (hR : ∀ {x y}, R x y ↔ x = y) {xs ys : Array α} :
    Pointwise R xs ys ↔ xs = ys := by
  have hfun : R = Eq := funext₂ fun x y => propext hR
  rw [Pointwise, hfun, List.forall₂_eq_eq_eq]
  exact Array.toList_inj

theorem entriesMatch_unmoved_iff {e e' : String × Value} :
    EntriesMatch (Value.Corresponds (unmoved excused)) e e' ↔ e = e' := by
  rw [EntriesMatch, Value.corresponds_unmoved_iff, ← Prod.ext_iff]

theorem Dict.Pointwise.eq_iff {d e : Dict Value} :
    Dict.Pointwise (Value.Corresponds (unmoved excused)) d e ↔ d = e := by
  have hfun : EntriesMatch (Value.Corresponds (unmoved excused)) = Eq :=
    funext₂ fun e e' => propext entriesMatch_unmoved_iff
  rw [Dict.Pointwise, hfun]
  obtain ⟨entries, hnodup⟩ := d
  obtain ⟨entries', hnodup'⟩ := e
  simp

theorem IteratorItems.corresponds_unmoved_iff : xs.Corresponds (unmoved excused) ys ↔ xs = ys := by
  constructor
  · intro h
    cases h with
    | array h => rw [(Pointwise.eq_iff Value.corresponds_unmoved_iff).1 h]
    | string => rfl
    | map h => rw [(Pointwise.eq_iff entriesMatch_unmoved_iff).1 h]
  · rintro rfl
    cases xs with
    | array items => exact .array ((Pointwise.eq_iff Value.corresponds_unmoved_iff).2 rfl)
    | string chars => exact .string chars
    | map entries => exact .map ((Pointwise.eq_iff entriesMatch_unmoved_iff).2 rfl)

theorem Heap.corresponds_unmoved (h : Heap) : h.Corresponds (unmoved excused) h where
  buffer := fun _ => rfl
  array := fun _ => (Pointwise.eq_iff Value.corresponds_unmoved_iff).2 rfl
  map := fun _ => Dict.Pointwise.eq_iff.2 rfl
  items := fun _ => IteratorItems.corresponds_unmoved_iff.2 rfl
  moved := fun _ => rfl
  newBuffer := fun _ => rfl
  newArray := fun _ => rfl
  newMap := fun _ => rfl
  newIterator := fun _ => rfl

/-- Arrays of one size with the same items. -/
theorem eq_of_getD {xs ys : Array α} {d : α} (hsize : xs.size = ys.size) (h : ∀ i, xs.getD i d = ys.getD i d) :
    xs = ys := by
  refine Array.ext hsize fun i hi hi' => ?_
  have hitem := h i
  rwa [Array.getD_eq_getD_getElem?, Array.getD_eq_getD_getElem?, Array.getElem?_eq_getElem hi, Array.getElem?_eq_getElem hi'] at hitem

theorem Heap.eq_of_corresponds (h : h1.Corresponds (unmoved excused) h2) (hcells : h1.cells = h2.cells)
    (hfunctions : h1.functions = h2.functions) : h1 = h2 := by
  have hbuffers : h1.buffers = h2.buffers := eq_of_getD (h.newBuffer 0) fun a => (h.buffer a).symm
  have harrays : h1.arrays = h2.arrays :=
    eq_of_getD (h.newArray 0) fun a => (Pointwise.eq_iff Value.corresponds_unmoved_iff).1 (h.array a)
  have hmaps : h1.maps = h2.maps := eq_of_getD (h.newMap 0) fun a => Dict.Pointwise.eq_iff.1 (h.map a)
  have hiterator : ∀ a, h1.iterator a = h2.iterator a := by
    intro a
    have hitems : (h1.iterator a).items = (h2.iterator a).items := IteratorItems.corresponds_unmoved_iff.1 (h.items a)
    have hmoved : (h2.iterator a).moved = (h1.iterator a).moved := h.moved a
    cases hx : h1.iterator a with
    | mk items moved =>
      cases hy : h2.iterator a with
      | mk items' moved' => simp_all
  have hiterators : h1.iterators = h2.iterators := eq_of_getD (h.newIterator 0) hiterator
  obtain ⟨_, _, _, _, _, _⟩ := h1
  subst hbuffers harrays hmaps hiterators hcells hfunctions
  rfl

end Unmoved

end ScriptEngine
