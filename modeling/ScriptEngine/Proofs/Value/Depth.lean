import Mathlib
import ScriptEngine.Proofs.Dict
import ScriptEngine.Value.Copy
import ScriptEngine.Value.Equality
/-!
# Enough fuel

Rendering, comparing and copying values follow containers into each other, and their fuel bounds how
deep. A container is entered only once on the way from a value to a part of it, and an address that was
never handed out has no items, so the containers of the heap are a bound. Main statements: with at least
that much fuel the outcome does not depend on the fuel (`Render.renderInto_of_depth_le`,
`Copy.copyIn_of_depth_le`).
-/

namespace ScriptEngine

variable {a b : Addr} {h : Heap} {path : List ContainerPair} {fuel : Nat} {s : State}

/-- As many different items as some list has at most its length. -/
theorem length_le_of_nodup {α : Type} {xs ys : List α} (hnodup : xs.Nodup) (hin : ∀ x ∈ xs, x ∈ ys) :
    xs.length ≤ ys.length := (hnodup.subperm hin).length_le

theorem Heap.lt_size_of_mem_array {v : Value} (hv : v ∈ (h.array a).toList) : a < h.arrays.size := by
  by_contra hout
  rw [Heap.array, Array.getD_eq_getD_getElem?, Array.getElem?_eq_none (Nat.le_of_not_lt hout)] at hv
  simp at hv

theorem Heap.lt_size_of_mem_map {e : String × Value} (he : e ∈ (h.map a).entries) : a < h.maps.size := by
  by_contra hout
  rw [Heap.map, Array.getD_eq_getD_getElem?, Array.getElem?_eq_none (Nat.le_of_not_lt hout)] at he
  cases he

/-- The containers that have an address in a heap. -/
def Heap.containers (h : Heap) : List Container :=
  (List.range h.arrays.size).map .array ++ (List.range h.maps.size).map .map

theorem Heap.array_mem_containers (ha : a < h.arrays.size) : Container.array a ∈ h.containers := by
  simp [containers, ha]

theorem Heap.map_mem_containers (ha : a < h.maps.size) : Container.map a ∈ h.containers := by
  simp [containers, ha]

theorem Heap.depth_eq (h : Heap) : h.depth = h.containers.length + 1 := by
  simp [depth, containers]

/-! ### Text -/

namespace Render

variable {α β : Type} {h : Heap} {b bound : Option Nat}

theorem separated_eq {R : α → β → Prop} {item : α → String → Option String} {item' : β → String → Option String}
    (hitem : ∀ x y, R x y → item' y = item x) {xs : List α} {ys : List β} (h : List.Forall₂ R xs ys) (started : Bool) :
    separated b item' started ys = separated b item started xs := by
  induction h generalizing started with
  | nil => rfl
  | cons hx _ ih =>
    funext out
    rw [separated, separated, hitem _ _ hx, ih]

theorem separated_congr {item item' : α → String → Option String} {xs : List α}
    (hitem : ∀ x ∈ xs, ∀ out, item x out = item' x out) (started : Bool) :
    separated bound item started xs = separated bound item' started xs := by
  refine separated_eq (R := fun x y => x = y ∧ x ∈ xs) ?_ (List.forall₂_same.2 fun x hx => ⟨rfl, hx⟩) started
  rintro x _ ⟨rfl, hx⟩
  exact funext (hitem x hx)

/-- The containers around a value are different ones of the heap. -/
structure IsPath (h : Heap) (path : List Container) : Prop where
  nodup : path.Nodup
  mem : ∀ c ∈ path, c ∈ h.containers

theorem IsPath.cons {path : List Container} (hpath : IsPath h path) {c : Container} (hc : c ∉ path)
    (hmem : c ∈ h.containers) : IsPath h (c :: path) :=
  ⟨List.nodup_cons.2 ⟨hc, hpath.nodup⟩, List.forall_mem_cons.2 ⟨hmem, hpath.mem⟩⟩

theorem renderInto_succ {path : List Container} (hpath : IsPath h path)
    (hfuel : h.depth ≤ fuel + path.length) (v : Value) (out : String) :
    renderInto h bound fuel path v out = renderInto h bound (fuel + 1) path v out := by
  induction fuel generalizing path v out with
  | zero =>
    have hlength := length_le_of_nodup hpath.nodup hpath.mem
    rw [Heap.depth_eq] at hfuel
    omega
  | succ fuel ih =>
    rw [renderInto, renderInto]
    obtain ⟨errors, core⟩ := v.unwrap
    dsimp only
    congr 1
    funext out
    have hdeeper : h.depth ≤ fuel + (path.length + 1) := by omega
    cases core with
    | array a | frozenArray a =>
      dsimp only
      split
      · rfl
      · rename_i hout
        congr 1
        funext out
        rw [separated_congr fun x hx => ih (hpath.cons hout
          (Heap.array_mem_containers (Heap.lt_size_of_mem_array hx))) hdeeper x]
    | map a | frozenMap a =>
      dsimp only
      split
      · rfl
      · rename_i hout
        congr 1
        funext out
        rw [separated_congr fun e he out => ?_]
        congr 1
        funext out
        exact ih (hpath.cons hout (Heap.map_mem_containers (Heap.lt_size_of_mem_map he))) hdeeper e.2 out
    | _ => rfl

/-- With enough fuel the text does not depend on it. -/
theorem renderInto_of_depth_le (hfuel : h.depth ≤ fuel) (v : Value) (out : String) :
    renderInto h bound fuel [] v out = renderInto h bound h.depth [] v out := by
  induction fuel, hfuel using Nat.le_induction with
  | base => rfl
  | succ fuel hfuel ih => rw [← renderInto_succ ⟨.nil, by simp⟩ hfuel, ih]

end Render

/-! ### Equality -/

/-- The pairs of containers of one kind that have addresses in a heap. -/
def Heap.containerPairs (h : Heap) : List ContainerPair :=
  (List.range h.arrays.size ×ˢ List.range h.arrays.size).map (fun p => .arrays p.1 p.2) ++
    (List.range h.maps.size ×ˢ List.range h.maps.size).map fun p => .maps p.1 p.2

theorem Heap.pairs_eq (h : Heap) : h.pairs = h.containerPairs.length + 1 := by
  simp [pairs, containerPairs, List.length_product]

namespace Equality

variable {h : Heap}

/-- The pairs under comparison are different ones of the heap. -/
structure IsPath (h : Heap) (path : List ContainerPair) : Prop where
  nodup : path.Nodup
  mem : ∀ c ∈ path, c ∈ h.containerPairs

theorem IsPath.cons (hpath : IsPath h path) {c : ContainerPair} (hc : c ∉ path)
    (hmem : c ∈ h.containerPairs) : IsPath h (c :: path) :=
  ⟨List.nodup_cons.2 ⟨hc, hpath.nodup⟩, List.forall_mem_cons.2 ⟨hmem, hpath.mem⟩⟩

theorem sameItems_iff {same : Value → Value → Bool} {xs ys : List Value} :
    sameItems same xs ys = true ↔ List.Forall₂ (same · · = true) xs ys := by
  induction xs generalizing ys with
  | nil => cases ys <;> simp [sameItems]
  | cons x xs ih => cases ys <;> simp [sameItems, ih]

end Equality

/-! ### Copies -/

namespace Copy

variable {source : Heap} {α β : Type}

/-- The containers that were met stay known. -/
def Grows (x : CopyM α) : Prop := ∀ s, s.seen <:+ (x s).2.seen

theorem Grows.bind {x : CopyM α} {f : α → CopyM β} (hx : Grows x) (hf : ∀ a, Grows (f a)) : Grows (x >>= f) :=
  fun s => (hx s).trans (hf (x s).1 (x s).2)

theorem Grows.same {x : CopyM α} (h : ∀ s, (x s).2.seen = s.seen) : Grows x :=
  fun s => by rw [h s]

theorem grows_each {copy : α → CopyM β} (hcopy : ∀ x, Grows (copy x)) (done : Array β) (xs : List α) :
    Grows (each copy done xs) := by
  induction xs generalizing done with
  | nil => exact .same fun _ => rfl
  | cons x xs ih => exact (hcopy x).bind fun y => ih (done.push y)

theorem grows_copyArray {copy : Value → CopyM Value} (hcopy : ∀ v, Grows (copy v)) (a : Addr) (items : List Value) :
    Grows (copyArray copy a items) := by
  refine Grows.bind (.same fun _ => rfl) fun seen => ?_
  cases seen with
  | some b => exact .same fun _ => rfl
  | none =>
    refine Grows.bind (fun s => List.suffix_cons ..) fun b => ?_
    exact (grows_each hcopy _ _).bind fun items => .same fun _ => rfl

theorem grows_copyMap {copy : Value → CopyM Value} (hcopy : ∀ v, Grows (copy v)) (a : Addr)
    (entries : List (String × Value)) : Grows (copyMap copy a entries) := by
  refine Grows.bind (.same fun _ => rfl) fun seen => ?_
  cases seen with
  | some b => exact .same fun _ => rfl
  | none =>
    refine Grows.bind (fun s => List.suffix_cons ..) fun b => ?_
    refine (grows_each (fun e => ?_) _ _).bind fun entries => .same fun _ => rfl
    exact (hcopy e.2).bind fun v => .same fun _ => rfl

theorem grows_copyIn (fuel : Nat) (v : Value) : Grows (copyIn source fuel v) := by
  induction fuel generalizing v with
  | zero =>
    rw [copyIn]
    obtain ⟨errors, core⟩ := v.unwrap
    cases core <;> exact .same fun _ => rfl
  | succ fuel ih =>
    rw [copyIn]
    obtain ⟨errors, core⟩ := v.unwrap
    cases core with
    | array a | frozenArray a => exact (grows_copyArray ih a _).bind fun v => .same fun _ => rfl
    | map a | frozenMap a => exact (grows_copyMap ih a _).bind fun v => .same fun _ => rfl
    | _ => exact .same fun _ => rfl

/-- How many containers of the source were not met yet. -/
def unseen (source : Heap) (s : State) : Nat :=
  (source.containers.filter fun c => s.seen.all (·.1 ≠ c)).length

theorem unseen_le {s' : State} (h : s.seen <:+ s'.seen) : unseen source s' ≤ unseen source s := by
  refine List.Sublist.length_le (List.monotone_filter_right _ fun c hc => ?_)
  rw [List.all_eq_true] at hc ⊢
  exact fun e he => hc e (h.subset he)

/-- A container is met for the first time. -/
theorem unseen_lt {s' : State} {c : Container} (hmem : c ∈ source.containers)
    (hnew : s.seen.find? (·.1 = c) = none) (hseen : s'.seen = (c, b) :: s.seen) : unseen source s' < unseen source s := by
  have hfresh : s.seen.all (·.1 ≠ c) = true := by
    rw [List.find?_eq_none] at hnew
    rw [List.all_eq_true]
    exact fun e he => by simpa using hnew e he
  have hsub : (source.containers.filter fun d => s'.seen.all (·.1 ≠ d)).Sublist
      (source.containers.filter fun d => s.seen.all (·.1 ≠ d)) := by
    refine List.monotone_filter_right _ fun d hd => ?_
    rw [hseen, List.all_cons, Bool.and_eq_true] at hd
    exact hd.2
  -- If as many were left as before, they would be the same ones, with the container among them.
  refine hsub.length_le.lt_of_ne fun hlength => ?_
  have hin : c ∈ source.containers.filter fun d => s'.seen.all (·.1 ≠ d) := by
    rw [hsub.eq_of_length hlength]
    exact List.mem_filter.2 ⟨hmem, hfresh⟩
  have hout := (List.mem_filter.1 hin).2
  rw [hseen] at hout
  simp at hout

theorem unseen_lt_depth (source : Heap) (s : State) : unseen source s < source.depth := by
  rw [Heap.depth_eq]
  exact Nat.lt_succ_of_le (List.length_filter_le ..)

section

variable {n : Nat} {s : State} (hs : unseen source s < n + 1)
include hs

/-- A container with a content is in the heap. -/
theorem unseen_startArray (hne : (source.array a).toList ≠ []) (hnew : s.seen.find? (·.1 = .array a) = none) :
    unseen source (startArray (.array a) s).2 < n := by
  obtain ⟨v, hv⟩ := List.exists_mem_of_ne_nil _ hne
  have hlt : unseen source (startArray (.array a) s).2 < unseen source s :=
    unseen_lt (Heap.array_mem_containers (Heap.lt_size_of_mem_array hv)) hnew rfl
  omega

theorem unseen_startMap (hne : (source.map a).entries ≠ []) (hnew : s.seen.find? (·.1 = .map a) = none) :
    unseen source (startMap (.map a) s).2 < n := by
  obtain ⟨e, he⟩ := List.exists_mem_of_ne_nil _ hne
  have hlt : unseen source (startMap (.map a) s).2 < unseen source s :=
    unseen_lt (Heap.map_mem_containers (Heap.lt_size_of_mem_map he)) hnew rfl
  omega

end

theorem each_congr {copy copy' : α → CopyM β} {n : Nat} {xs : List α} (hgrows : ∀ x, Grows (copy x))
    (hcopy : ∀ x ∈ xs, ∀ s, unseen source s < n → copy x s = copy' x s) (done : Array β) (s : State)
    (hs : xs ≠ [] → unseen source s < n) : each copy done xs s = each copy' done xs s := by
  induction xs generalizing done s with
  | nil => rfl
  | cons x xs ih =>
    show each copy (done.push (copy x s).1) xs (copy x s).2 = each copy' (done.push (copy' x s).1) xs (copy' x s).2
    have hs := hs (List.cons_ne_nil x xs)
    rw [← hcopy x (List.mem_cons_self ..) s hs]
    exact ih (fun y hy => hcopy y (List.mem_cons_of_mem x hy)) _ _ fun _ => (unseen_le (hgrows x s)).trans_lt hs

/-- One part of a copy after the other. -/
theorem bind_apply (x : CopyM α) (f : α → CopyM β) (s : State) : (x >>= f) s = f (x s).1 (x s).2 := rfl

theorem bind_congr {x y : CopyM α} {f : α → CopyM β} (h : x s = y s) : (x >>= f) s = (y >>= f) s := by
  rw [bind_apply, bind_apply, h]

theorem bind_same {x : CopyM α} {f g : α → CopyM β} (h : f (x s).1 (x s).2 = g (x s).1 (x s).2) :
    (x >>= f) s = (x >>= g) s := h

theorem known_apply (c : Container) (s : State) : known c s = ((s.seen.find? (·.1 = c)).map (·.2), s) := rfl

section

variable {copy copy' : Value → CopyM Value} {n : Nat} {s : State} (hgrows : ∀ v, Grows (copy v))
  (hcopy : ∀ v s, unseen source s < n → copy v s = copy' v s) (hs : unseen source s < n + 1)

include hgrows hcopy hs

theorem copyArray_congr (a : Addr) :
    copyArray copy a (source.array a).toList s = copyArray copy' a (source.array a).toList s := by
  rw [copyArray, copyArray, bind_apply, bind_apply, known_apply]
  cases hseen : s.seen.find? (·.1 = .array a) with
  | some e => rfl
  | none =>
    have hroom := fun hne => unseen_startArray hs hne hseen
    exact bind_same (bind_congr (each_congr hgrows (fun v _ => hcopy v) _ _ hroom))

theorem copyMap_congr (a : Addr) :
    copyMap copy a (source.map a).entries s = copyMap copy' a (source.map a).entries s := by
  rw [copyMap, copyMap, bind_apply, bind_apply, known_apply]
  cases hseen : s.seen.find? (·.1 = .map a) with
  | some e => rfl
  | none =>
    have hroom := fun hne => unseen_startMap hs hne hseen
    refine bind_same (bind_congr (each_congr (fun e => ?_) (fun e _ s hs => bind_congr (hcopy e.2 s hs)) _ _ hroom))
    exact (hgrows e.2).bind fun _ => .same fun _ => rfl

end

theorem copyIn_succ (v : Value) (s : State) (hs : unseen source s < fuel) :
    copyIn source fuel v s = copyIn source (fuel + 1) v s := by
  induction fuel generalizing v s with
  | zero => omega
  | succ fuel ih =>
    have hgrows : ∀ v, Grows (copyIn source fuel v) := grows_copyIn fuel
    rw [copyIn, copyIn]
    obtain ⟨errors, core⟩ := v.unwrap
    cases core with
    | array a | frozenArray a =>
      exact bind_congr (copyArray_congr hgrows ih hs a)
    | map a | frozenMap a =>
      exact bind_congr (copyMap_congr hgrows ih hs a)
    | _ => rfl

/-- With enough fuel a copy does not depend on it. -/
theorem copyIn_of_depth_le (hfuel : source.depth ≤ fuel) (v : Value) (s : State) :
    copyIn source fuel v s = copyIn source source.depth v s := by
  have hunseen := unseen_lt_depth source s
  induction fuel, hfuel using Nat.le_induction with
  | base => rfl
  | succ fuel hfuel ih => rw [← copyIn_succ v s (by omega), ih]

end Copy

end ScriptEngine
