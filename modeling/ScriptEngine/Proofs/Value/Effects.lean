import ScriptEngine.Machine.Step
import ScriptEngine.Proofs.Dict
import ScriptEngine.Proofs.Value.Laws
/-!
# What operations change

An operation on values may allocate, and it may change the contents of some containers.
`Heap.KeepsBut` says which ones at most; whatever else the heap held is there as it was. An operation is
confined (`HeapM.Confined`) when it changes nothing if it fails and nothing but the given containers if it
succeeds. Checks only look at the heap (`HeapM.Looks`), and a confined operation starts with them.
-/

namespace ScriptEngine

variable {a : Addr} {α : Type} {changed : Value → Prop}

/-- A later state of a store has the same contents at some places; it may have grown. -/
structure Stays {α : Type} (P : Addr → Prop) (xs ys : Array α) : Prop where
  size_le : xs.size ≤ ys.size
  same : ∀ a < xs.size, P a → ys[a]? = xs[a]?

namespace Stays

variable {P Q : Addr → Prop} {xs ys zs : Array α}

theorem refl (xs : Array α) : Stays P xs xs := ⟨Nat.le_refl _, fun _ _ _ => rfl⟩

theorem trans (h : Stays P xs ys) (h' : Stays Q ys zs) (himp : ∀ a < xs.size, P a → Q a) : Stays P xs zs where
  size_le := Nat.le_trans h.size_le h'.size_le
  same a ha hP := (h'.same a (Nat.lt_of_lt_of_le ha h.size_le) (himp a ha hP)).trans (h.same a ha hP)

theorem push (xs : Array α) (x : α) : Stays P xs (xs.push x) where
  size_le := by simp
  same a ha _ := by rw [Array.getElem?_push, if_neg (Nat.ne_of_lt ha)]

theorem modify (ha : ¬ P a) (xs : Array α) (f : α → α) : Stays P xs (xs.modify a f) where
  size_le := by simp
  same b _ hb := by
    have hne : a ≠ b := fun heq => ha (heq ▸ hb)
    rw [Array.getElem?_modify, if_neg hne]

/-- Places are read with a default. -/
theorem getD_eq (h : Stays P xs ys) (ha : a < xs.size) (hP : P a) (x : α) : ys.getD a x = xs.getD a x := by
  rw [Array.getD_eq_getD_getElem?, Array.getD_eq_getD_getElem?, h.same a ha hP]

end Stays

/-- The content of a value exists. -/
def Heap.Holds (h : Heap) : Value → Prop
  | .bytes a => a < h.buffers.size
  | .array a | .frozenArray a => a < h.arrays.size
  | .map a | .frozenMap a => a < h.maps.size
  | .iterator _ a => a < h.iterators.size
  | _ => True

/-- A later heap holds what the earlier one held, but for the contents of some containers. -/
structure Heap.KeepsBut (changed : Value → Prop) (h h' : Heap) : Prop where
  buffers : Stays (fun a => ¬ changed (.bytes a)) h.buffers h'.buffers
  arrays : Stays (fun a => ¬ changed (.array a)) h.arrays h'.arrays
  maps : Stays (fun a => ¬ changed (.map a)) h.maps h'.maps
  iterators : Stays (fun _ => True) h.iterators h'.iterators
  cells : h'.cells = h.cells

namespace Heap.KeepsBut

variable {changed' : Value → Prop} {h h1 h2 : Heap}

theorem refl (h : Heap) : h.KeepsBut changed h := ⟨.refl _, .refl _, .refl _, .refl _, rfl⟩

section

variable (k : h.KeepsBut changed h1)
include k

/-- A second step may also change what did not exist at first. -/
theorem trans_new (k' : h1.KeepsBut changed' h2)
    (hnew : ∀ v, h.Holds v → changed' v → changed v) : h.KeepsBut changed h2 where
  buffers := k.buffers.trans k'.buffers fun a ha => mt (hnew (.bytes a) ha)
  arrays := k.arrays.trans k'.arrays fun a ha => mt (hnew (.array a) ha)
  maps := k.maps.trans k'.maps fun a ha => mt (hnew (.map a) ha)
  iterators := k.iterators.trans k'.iterators fun _ _ => id
  cells := k'.cells.trans k.cells

theorem trans (k' : h1.KeepsBut changed h2) : h.KeepsBut changed h2 :=
  k.trans_new k' fun _ _ => id

theorem mono (himp : ∀ v, h.Holds v → changed v → changed' v) : h.KeepsBut changed' h1 :=
  (refl h).trans_new k himp

end

theorem newBuffer (h : Heap) (content : Array UInt8) : h.KeepsBut changed (h.newBuffer content).2 :=
  { refl h with buffers := .push _ _ }

theorem newArray (h : Heap) (content : Array Value) : h.KeepsBut changed (h.newArray content).2 :=
  { refl h with arrays := .push _ _ }

theorem newMap (h : Heap) (content : Dict Value) : h.KeepsBut changed (h.newMap content).2 :=
  { refl h with maps := .push _ _ }

theorem newIterator (h : Heap) (it : Iterator) : h.KeepsBut changed (h.newIterator it).2 :=
  { refl h with iterators := .push _ _ }

theorem modifyBuffer (ha : changed (.bytes a)) (h : Heap) (f : Array UInt8 → Array UInt8) :
    h.KeepsBut changed (h.modifyBuffer a f) :=
  { refl h with buffers := .modify (not_not_intro ha) _ _ }

theorem modifyArray (ha : changed (.array a)) (h : Heap) (f : Array Value → Array Value) :
    h.KeepsBut changed (h.modifyArray a f) :=
  { refl h with arrays := .modify (not_not_intro ha) _ _ }

theorem modifyMap (ha : changed (.map a)) (h : Heap) (f : Dict Value → Dict Value) :
    h.KeepsBut changed (h.modifyMap a f) :=
  { refl h with maps := .modify (not_not_intro ha) _ _ }

theorem setArray (ha : changed (.array a)) (h : Heap) (content : Array Value) :
    h.KeepsBut changed (h.setArray a content) := by
  rw [Heap.setArray_eq]
  exact modifyArray ha h _

theorem setMap (ha : changed (.map a)) (h : Heap) (content : Dict Value) :
    h.KeepsBut changed (h.setMap a content) := by
  rw [Heap.setMap_eq]
  exact modifyMap ha h _

variable (k : h.KeepsBut changed h1)
include k

theorem buffer_eq (ha : a < h.buffers.size) (hnot : ¬ changed (.bytes a)) :
    h1.buffer a = h.buffer a := k.buffers.getD_eq ha hnot _

theorem array_eq (ha : a < h.arrays.size) (hnot : ¬ changed (.array a)) :
    h1.array a = h.array a := k.arrays.getD_eq ha hnot _

theorem map_eq (ha : a < h.maps.size) (hnot : ¬ changed (.map a)) : h1.map a = h.map a := k.maps.getD_eq ha hnot _

end Heap.KeepsBut

/-! ### Operations on the heap -/

namespace HeapM

variable {β : Type} {R : Heap → Heap → Prop} {x : HeapM α}

/-- An operation that fails leaves the heap as it was; one that succeeds leaves a heap that is related to
the one before. -/
def Leaves (R : Heap → Heap → Prop) (x : HeapM α) : Prop :=
  ∀ h, (∀ a h', x h = .ok a h' → R h h') ∧ ∀ c h', x h = .error c h' → h' = h

/-- An operation never changes the heap. -/
abbrev Looks (x : HeapM α) : Prop := x.Leaves fun h h' => h' = h

/-- An operation changes nothing if it fails, and some containers at most if it succeeds. -/
abbrev Confined (changed : Value → Prop) (x : HeapM α) : Prop := x.Leaves (Heap.KeepsBut changed)

/-- An operation that cannot fail changes some containers at most. -/
def Succeeds (changed : Value → Prop) (x : HeapM α) : Prop :=
  ∀ h, ∃ a h', x h = .ok a h' ∧ Heap.KeepsBut changed h h'

namespace Leaves

theorem pure (a : α) : Looks (Pure.pure a) := fun h => by
  refine ⟨fun a' h' hr => ?_, fun c h' hr => ?_⟩ <;> cases hr
  rfl

theorem throw (c : Fault) : Leaves R (throw c : HeapM α) := fun h => by
  refine ⟨fun a' h' hr => ?_, fun c h' hr => ?_⟩ <;> cases hr
  rfl

theorem ofExcept (r : Except Fault α) : Looks (HeapM.ofExcept r) := by
  cases r with
  | ok a => exact pure a
  | error c => exact throw c

theorem read (f : Heap → Except Fault α) : Looks (HeapM.read f) := by
  intro h
  rw [HeapM.read]
  cases f h with
  | ok a => exact pure a h
  | error c => exact (throw c : Looks (MonadExcept.throw c)) h

/-- A look comes first. -/
theorem after {f : α → HeapM β} (hx : Looks x) (hf : ∀ a, Leaves R (f a)) : Leaves R (x >>= f) := by
  intro h
  change (∀ a h', EStateM.bind x f h = _ → _) ∧ ∀ c h', EStateM.bind x f h = _ → _
  rw [EStateM.bind]
  cases hxh : x h with
  | ok a h1 =>
    obtain rfl := (hx h).1 a h1 hxh
    exact hf a h1
  | error c h1 =>
    refine ⟨fun _ _ hr => ?_, fun c h' hr => ?_⟩ <;> cases hr
    exact (hx h).2 c h1 hxh

/-- The heap is read first. -/
theorem get {f : Heap → HeapM α} (hf : ∀ h, Leaves R (f h)) : Leaves R (MonadState.get >>= f) := fun h => hf h h

theorem confined (hx : Looks x) : Confined changed x := fun h =>
  ⟨fun a h' hr => (hx h).1 a h' hr ▸ .refl h', (hx h).2⟩

end Leaves

namespace Succeeds

theorem pure (a : α) : Succeeds changed (Pure.pure a) := fun h => ⟨a, h, rfl, .refl h⟩

theorem bytes (content : Array UInt8) : Succeeds changed (HeapM.bytes content) :=
  fun h => ⟨_, _, rfl, .newBuffer h content⟩

theorem array (content : Array Value) : Succeeds changed (HeapM.array content) :=
  fun h => ⟨_, _, rfl, .newArray h content⟩

theorem iterator (kind : IteratorKind) (items : IteratorItems) : Succeeds changed (HeapM.iterator kind items) :=
  fun h => ⟨_, _, rfl, .newIterator h _⟩

theorem modify {f : Heap → Heap} (hf : ∀ h, Heap.KeepsBut changed h (f h)) : Succeeds changed (modify f) :=
  fun h => ⟨_, _, rfl, hf h⟩

theorem bind {f : α → HeapM β} (hx : Succeeds changed x) (hf : ∀ a, Succeeds changed (f a)) :
    Succeeds changed (x >>= f) := by
  intro h
  obtain ⟨a, h1, hxh, k1⟩ := hx h
  obtain ⟨b, h2, hfh, k2⟩ := hf a h1
  refine ⟨b, h2, ?_, k1.trans k2⟩
  change EStateM.bind x f h = _
  rw [EStateM.bind, hxh]
  exact hfh

theorem confined (hx : Succeeds changed x) : Confined changed x := by
  intro h
  obtain ⟨a, h1, hxh, k⟩ := hx h
  rw [hxh]
  refine ⟨fun a h' hr => ?_, fun c h' hr => ?_⟩ <;> cases hr
  exact k

end Succeeds

end HeapM

/-! ### Operations on values -/

namespace Value

theorem confined_slice (v low high : Value) : (v.slice low high).Confined changed := by
  unfold slice
  split
  · exact .get fun h => .after (.ofExcept _) fun r => (HeapM.Succeeds.array _).confined
  · exact .get fun h => .after (.ofExcept _) fun r => (HeapM.Succeeds.array _).confined
  · exact .after (.ofExcept _) fun r => (HeapM.Leaves.pure _).confined
  · exact .get fun h => .after (.ofExcept _) fun r => (HeapM.Succeeds.bytes _).confined
  · exact .throw _

theorem confined_iterate (v : Value) : v.iterate.Confined changed := by
  unfold iterate
  split
  · exact .get fun h => (HeapM.Succeeds.iterator _ _).confined
  · exact .get fun h => (HeapM.Succeeds.iterator _ _).confined
  · exact .get fun h => (HeapM.Succeeds.iterator _ _).confined
  · exact .get fun h => (HeapM.Succeeds.iterator _ _).confined
  · exact (HeapM.Succeeds.iterator _ _).confined
  · exact .throw _

theorem confined_binary (limits : Limits) (op : Operator) (v w : Value) :
    (v.binary limits op w).Confined changed := by
  unfold binary
  refine .after (.ofExcept _) fun r => ?_
  cases r with
  | some x => exact (HeapM.Leaves.pure x).confined
  | none =>
    dsimp only
    split
    · unfold join
      split
      · simp only [bind_assoc, pure_bind]
        exact .get fun h => .after (.ofExcept _) fun _ => ((HeapM.Succeeds.bytes _).bind fun x => .pure x).confined
      · split
        · simp only [bind_assoc, pure_bind]
          exact .get fun h => .after (.ofExcept _) fun _ => ((HeapM.Succeeds.array _).bind fun x => .pure x).confined
        · exact .throw _
    · exact .throw _

end Value

/-! ### Assignments -/

theorem Entries.keys_insert (key : String) (value : α) (entries : List (String × α)) :
    (insert key value entries).map Prod.fst =
      if key ∈ entries.map Prod.fst then entries.map Prod.fst else entries.map Prod.fst ++ [key] := by
  induction entries with
  | nil => rfl
  | cons e rest ih =>
    obtain ⟨k, v⟩ := e
    rw [insert]
    by_cases hk : k = key
    · simp [hk]
    · have hne : ¬ key = k := fun heq => hk heq.symm
      simp only [if_neg hk, List.map_cons, ih, List.mem_cons, hne, false_or]
      split <;> rfl

/-- The entry of a container at an index is set to a value: of a sequence the item at that place, of a map the
entry with that key, in its place if there is one and else as the last; bytes take the low byte of an integer.
All other entries and their order are as before. -/
inductive Heap.EntrySet (h h' : Heap) (index v : Value) : Value → Prop where
  | array {a : Addr} {i : Int64} (hindex : index = .int i) (hlow : 0 ≤ i.toInt) (hhigh : i.toInt < (h.array a).size)
      (hitems : ∀ j : Nat, (h'.array a)[j]? = if (j : Int) = i.toInt then some v else (h.array a)[j]?) :
      EntrySet h h' index v (.array a)
  | map {a : Addr} (hindex : index ≠ .undefined)
      (hkeys : a < h.maps.size → (h'.map a).keys =
        if index.plainText h ∈ (h.map a).keys then (h.map a).keys else (h.map a).keys ++ [index.plainText h])
      (hentries : a < h.maps.size → ∀ key, (h'.map a).find? key =
        if index.plainText h = key then some v else (h.map a).find? key) :
      EntrySet h h' index v (.map a)
  | bytes {a : Addr} {i n : Int64} {b : UInt8} (hindex : index = .int i) (hlow : 0 ≤ i.toInt)
      (hhigh : i.toInt < (h.buffer a).size) (hvalue : v = .int n) (hbyte : (b.toNat : Int) = n.toInt % 256)
      (hitems : ∀ j : Nat, (h'.buffer a)[j]? = if (j : Int) = i.toInt then some b else (h.buffer a)[j]?) :
      EntrySet h h' index v (.bytes a)

namespace Heap

variable (h : Heap)

theorem buffer_modifyBuffer (ha : a < h.buffers.size) (f : Array UInt8 → Array UInt8) :
    (h.modifyBuffer a f).buffer a = f (h.buffer a) :=
  (getD_modify ..).trans (if_pos ⟨rfl, ha⟩)

theorem array_modifyArray (ha : a < h.arrays.size) (f : Array Value → Array Value) :
    (h.modifyArray a f).array a = f (h.array a) :=
  (getD_modify ..).trans (if_pos ⟨rfl, ha⟩)

theorem map_modifyMap (ha : a < h.maps.size) (f : Dict Value → Dict Value) : (h.modifyMap a f).map a = f (h.map a) :=
  (getD_modify ..).trans (if_pos ⟨rfl, ha⟩)

theorem array_setArray (ha : a < h.arrays.size) (content : Array Value) :
    (h.setArray a content).array a = content := by
  rw [setArray_eq, array_modifyArray h ha]

theorem map_setMap (ha : a < h.maps.size) (content : Dict Value) : (h.setMap a content).map a = content := by
  rw [setMap_eq, map_modifyMap h ha]

end Heap

theorem lt_size_of_getD {xss : Array (Array α)} (h : 0 < (xss.getD a #[]).size) : a < xss.size := by
  by_contra hout
  rw [Array.getD_eq_getD_getElem?, Array.getElem?_eq_none (Nat.le_of_not_lt hout)] at h
  cases h

namespace Value

theorem gives_asIndex (index : Value) : Gives (fun i => ∃ n : Int64, index = .int n ∧ i = n.toInt) index.asIndex := by
  cases index with
  | int n => exact .ok ⟨n, rfl, rfl⟩
  | _ => exact .error _

theorem gives_placeAt (size : Nat) (i : Int) : Gives (fun k : Nat => 0 ≤ i ∧ i < size ∧ (k) = i) (placeAt size i) := by
  rw [placeAt]
  split
  · next hi => exact .ok ⟨hi.1, hi.2, Int.toNat_of_nonneg hi.1⟩
  · exact .error _

theorem gives_asKey (h : Heap) (index : Value) :
    Gives (fun key => index ≠ .undefined ∧ key = index.plainText h) (index.asKey h) := by
  cases index with
  | undefined => exact .error _
  | _ => exact .ok ⟨by rintro ⟨⟩, rfl⟩

theorem getElem?_set_place {items : Array α} {k : Nat} {i : Int} (hk : (k : Int) = i) (hi : i < items.size)
    (x : α) (j : Nat) : (items.setIfInBounds k x)[j]? = if (j) = i then some x else items[j]? := by
  subst hk
  rw [Array.getElem?_setIfInBounds]
  by_cases hj : k = j
  · subst hj
    rw [if_pos rfl, if_pos rfl, if_pos (by omega)]
  · rw [if_neg hj, if_neg (by omega)]

theorem low_byte (n : Int64) : (n.toUInt64.toUInt8.toNat) = n.toInt % 256 := by
  have hn : n.toInt = (n.toUInt64.toNat : Int).bmod (2 ^ 64) := by
    rw [Int64.toInt, BitVec.toInt_eq_toNat_bmod]
    rfl
  rw [UInt64.toNat_toUInt8, hn]
  rw [Int.bmod_def]
  split <;> omega

/-- What the assignment of a part of a value changes. -/
theorem change_sets_entry (h : Heap) (v index x : Value) :
    Gives (fun f => h.KeepsBut (· = v) (f h) ∧ h.EntrySet (f h) index x v) (change h v index x) := by
  cases v with
  | array a =>
    refine (gives_asIndex index).bind fun i hi => ?_
    obtain ⟨n, hindex, rfl⟩ := hi
    refine (gives_placeAt _ _).bind fun k hk => .ok ⟨.modifyArray ?_ h _, ?_⟩
    · rfl
    · obtain ⟨hlow, hhigh, hk⟩ := hk
      have ha : a < h.arrays.size := lt_size_of_getD (by omega : 0 < (h.array a).size)
      refine .array hindex hlow hhigh fun j => ?_
      rw [← getElem?_set_place hk hhigh, h.array_modifyArray ha]
  | map a =>
    refine (gives_asKey h index).bind fun key hkey => .ok ⟨.modifyMap ?_ h _, ?_⟩
    · rfl
    · obtain ⟨hindex, rfl⟩ := hkey
      refine .map hindex (fun ha => ?_) fun ha key => ?_
      · rw [h.map_modifyMap ha]
        exact Entries.keys_insert ..
      · rw [h.map_modifyMap ha, Dict.find?_insert]
  | bytes a =>
    refine (gives_asIndex index).bind fun i hi => ?_
    obtain ⟨n, hindex, rfl⟩ := hi
    cases x with
    | int b =>
      refine (gives_placeAt _ _).bind fun k hk => .ok ⟨.modifyBuffer ?_ h _, ?_⟩
      · rfl
      · obtain ⟨hlow, hhigh, hk⟩ := hk
        have ha : a < h.buffers.size := lt_size_of_getD (by omega : 0 < (h.buffer a).size)
        refine .bytes hindex hlow hhigh rfl (low_byte b) fun j => ?_
        rw [← getElem?_set_place hk hhigh, h.buffer_modifyBuffer ha]
    | _ => exact .error _
  | _ => exact .error _

end Value

/-- What an assignment to the part of a value that selectors lead to changes. The first selector addresses an
entry of the container that the others lead to, from the last one on. -/
theorem Exec.assignPart_sets_entry (target v : Value) (selectors : List Value) (m : Machine) :
    (∀ u m', Exec.assignPart target v selectors m = .ok u m' → ∃ first rest holder h',
      selectors = first :: rest ∧ rest.reverse.foldlM (fun x key => x.get m.heap key) target = .ok holder ∧
      m' = { m with heap := h' } ∧ m.heap.KeepsBut (· = holder) h' ∧ m.heap.EntrySet h' first v holder) ∧
    ∀ c m', Exec.assignPart target v selectors m = .error c m' → m' = m := by
  cases selectors with
  | nil =>
    refine ⟨fun u m' hr => ?_, fun c m' hr => ?_⟩ <;> cases hr
    rfl
  | cons first rest =>
    change (∀ u m', EStateM.bind (Exec.examine _) _ m = _ → _) ∧ ∀ c m', EStateM.bind (Exec.examine _) _ m = _ → _
    rw [EStateM.bind, Exec.examine]
    cases hholder : rest.reverse.foldlM (fun x key => x.get m.heap key) target with
    | error c =>
      refine ⟨fun u m' hr => ?_, fun c m' hr => ?_⟩ <;> cases hr
      rfl
    | ok holder =>
      dsimp only
      rw [Exec.onHeap, Exec.takeHeap]
      simp only [Value.set]
      cases hchange : Value.change m.heap holder first v with
      | error c =>
        refine ⟨fun u m' hr => ?_, fun c m' hr => ?_⟩ <;> cases hr
        rfl
      | ok f =>
        refine ⟨fun u m' hr => ?_, fun c m' hr => ?_⟩ <;> cases hr
        exact ⟨first, rest, holder, f m.heap, rfl, hholder, rfl, Value.change_sets_entry _ _ _ _ f hchange⟩

end ScriptEngine
