import ScriptEngine.Proofs.Value.Laws
import ScriptEngine.Proofs.Value.Texts
import ScriptEngine.Value.Arithmetic
import ScriptEngine.Value.Convert
/-!
# Operations on corresponding values

An operation on values that correspond gives results that correspond, in heaps that correspond, or fails
for the same reason. It touches no captured variable, makes no function and fails only for reasons that a
program can cause. Limits may be larger on the second side if failing at a limit is excused. If the values of
the first side obey a law, so do the results (`Tie`); with nothing moved this says that an operation keeps a law
(`HeapM.Agree.keeps`). This module shows it of indexing, assignment, slices, iteration, operators and
conversions (`HeapM.Agree`).
-/

namespace ScriptEngine

variable {xs ys : Array Value} {d e : Dict Value} {f : Dict Value → Dict Value} {h1 h2 : Heap} {l1 l2 limits : Limits}
  {m n : Nat} {p : Prop} {α β γ δ : Type} {v w : Value}

/-- Whether a program can cause a fault. The other faults mean that the machine itself is broken. -/
def Fault.isMild : Fault → Bool
  | .custom _ | .invalidInstruction _ | .globalOutOfRange _ => false
  | _ => true

variable {κ : Correspondence}

/-! ### Stores -/

section Stores

variable {R : α → α → Prop} {xs ys : Array α} {x y d : α} {f : Nat → Nat} (hf : ∀ a b, f a = f b → a = b)
  (hnew : ∀ k, f (xs.size + k) = ys.size + k) (h : ∀ a, R (xs.getD a d) (ys.getD (f a) d))

include hf hnew

/-- What is at a place that exists on one side exists on the other side. -/
theorem place_lt_iff (a : Nat) : f a < ys.size ↔ a < xs.size := by
  constructor
  · intro h
    by_contra hout
    have := hnew (a - xs.size)
    rw [Nat.add_sub_cancel' (Nat.le_of_not_lt hout)] at this
    omega
  · intro h
    by_contra hout
    have heq := hnew (f a - ys.size)
    rw [Nat.add_sub_cancel' (Nat.le_of_not_lt hout)] at heq
    have := hf _ _ heq
    omega

include h

/-- New contents are at the new place on both sides. -/
theorem rel_getD_push (hxy : R x y) (a : Nat) : R ((xs.push x).getD a d) ((ys.push y).getD (f a) d) := by
  have heq : f a = ys.size ↔ a = xs.size := ⟨fun h => hf a _ (h.trans (hnew 0).symm), fun h => h ▸ hnew 0⟩
  simp only [getD_push, heq]
  split
  · exact hxy
  · exact h a

theorem rel_getD_modify (a : Nat) {g g' : α → α} (hg : ∀ u w, R u w → R (g u) (g' w)) (b : Nat) :
    R ((xs.modify a g).getD b d) ((ys.modify (f a) g').getD (f b) d) := by
  have heq : f b = f a ↔ b = a := ⟨hf b a, congrArg f⟩
  simp only [getD_modify, heq, place_lt_iff hf hnew]
  split
  · exact hg _ _ (h b)
  · exact h b

omit hf h

theorem new_push (k : Nat) : f ((xs.push x).size + k) = (ys.push y).size + k := by
  have := hnew (1 + k)
  rwa [Array.size_push, Array.size_push, Nat.add_assoc, Nat.add_assoc]

theorem new_modify (a b : Nat) (g g' : α → α) (k : Nat) :
    f ((xs.modify a g).size + k) = (ys.modify b g').size + k := by
  rw [Array.size_modify, Array.size_modify, hnew]

end Stores

namespace Heap.Corresponds

variable (hh : h1.Corresponds κ h2)

include hh

theorem pushBuffer (content : Array UInt8) : (h1.newBuffer content).2.Corresponds κ (h2.newBuffer content).2 :=
  { hh with
    buffer := rel_getD_push (R := fun u w => w = u) κ.buffers_inj hh.newBuffer hh.buffer rfl
    newBuffer := new_push hh.newBuffer }

theorem pushArray (h : Pointwise (Value.Corresponds κ) xs ys) : (h1.newArray xs).2.Corresponds κ (h2.newArray ys).2 :=
  { hh with array := rel_getD_push κ.arrays_inj hh.newArray hh.array h, newArray := new_push hh.newArray }

theorem pushMap (h : Dict.Pointwise (Value.Corresponds κ) d e) : (h1.newMap d).2.Corresponds κ (h2.newMap e).2 :=
  { hh with map := rel_getD_push κ.maps_inj hh.newMap hh.map h, newMap := new_push hh.newMap }

theorem pushIterator {it it' : Iterator} (h : it.items.Corresponds κ it'.items)
    (hmoved : it'.moved = it.moved) : (h1.newIterator it).2.Corresponds κ (h2.newIterator it').2 :=
  { hh with
    items := rel_getD_push (R := fun u w => u.items.Corresponds κ w.items) κ.iterators_inj hh.newIterator hh.items h
    moved := rel_getD_push (R := fun u w => w.moved = u.moved) κ.iterators_inj hh.newIterator hh.moved hmoved
    newIterator := new_push hh.newIterator }

variable (a : Addr)

theorem modifyArray {f g : Array Value → Array Value}
    (hf : ∀ xs ys, Pointwise (Value.Corresponds κ) xs ys → Pointwise (Value.Corresponds κ) (f xs) (g ys)) :
    (h1.modifyArray a f).Corresponds κ (h2.modifyArray (κ.arrays a) g) :=
  { hh with
    array := rel_getD_modify κ.arrays_inj hh.newArray hh.array a hf
    newArray := new_modify hh.newArray _ _ _ _ }

theorem modifyMap {g : Dict Value → Dict Value}
    (hf : ∀ d e, Dict.Pointwise (Value.Corresponds κ) d e → Dict.Pointwise (Value.Corresponds κ) (f d) (g e)) :
    (h1.modifyMap a f).Corresponds κ (h2.modifyMap (κ.maps a) g) :=
  { hh with
    map := rel_getD_modify κ.maps_inj hh.newMap hh.map a hf
    newMap := new_modify hh.newMap _ _ _ _ }

theorem modifyBuffer (f : Array UInt8 → Array UInt8) :
    (h1.modifyBuffer a f).Corresponds κ (h2.modifyBuffer (κ.buffers a) f) :=
  { hh with
    buffer := rel_getD_modify (R := fun u w => w = u) κ.buffers_inj hh.newBuffer hh.buffer a fun _ _ h => congrArg f h
    newBuffer := new_modify hh.newBuffer _ _ _ _ }

/-- An iterator moves on. -/
theorem advanceIterator :
    (h1.modifyIterator a fun it => { it with moved := it.moved + 1 }).Corresponds κ
      (h2.modifyIterator (κ.iterators a) fun it => { it with moved := it.moved + 1 }) :=
  { hh with
    items b := by
      refine rel_getD_modify (R := fun u w => u.items.Corresponds κ w.items) κ.iterators_inj hh.newIterator hh.items a ?_ b
      exact fun _ _ h => h
    moved := rel_getD_modify (R := fun u w => w.moved = u.moved) κ.iterators_inj hh.newIterator hh.moved a
      fun _ _ h => congrArg (· + 1) h
    newIterator := new_modify hh.newIterator _ _ _ _ }

end Heap.Corresponds

/-! ### Ties -/

/-- A correspondence, and what its first side is held to: a law, and how many globals and allocations a machine
that works with the values has. -/
structure Tie extends Correspondence where
  law : ValueLaw
  globals : Nat
  /-- How many allocations each side was allowed at first. -/
  allowed₁ : Int
  allowed₂ : Int

variable {τ : Tie}

/-- Values that correspond, of which the first one obeys the law. -/
inductive Value.Tied (τ : Tie) : Value → Value → Prop where
  | undefined : Tied τ .undefined .undefined
  | int (v : Int64) : Tied τ (.int v) (.int v)
  | float (v : Float) : Tied τ (.float v) (.float v)
  | char (c : Char) : Tied τ (.char c) (.char c)
  | bool (b : Bool) : Tied τ (.bool b) (.bool b)
  | string {s : String} (h : τ.law.string s) : Tied τ (.string s) (.string s)
  | bytes {a : Addr} (h : τ.law.buffers a) : Tied τ (.bytes a) (.bytes (τ.buffers a))
  | array {a : Addr} (h : τ.law.arrays a) : Tied τ (.array a) (.array (τ.arrays a))
  | frozenArray {a : Addr} (h : τ.law.arrays a) : Tied τ (.frozenArray a) (.frozenArray (τ.arrays a))
  | map {a : Addr} (h : τ.law.maps a) : Tied τ (.map a) (.map (τ.maps a))
  | frozenMap {a : Addr} (h : τ.law.maps a) : Tied τ (.frozenMap a) (.frozenMap (τ.maps a))
  | time (t : Instant) : Tied τ (.time t) (.time t)
  | error {v w : Value} (h : Tied τ v w) : Tied τ (.error v) (.error w)
  | native {f : Native} (h : τ.law.native f) : Tied τ (.native f) (.native f)
  | function {f g : Function} (h : τ.function f g) (hf : τ.law.function f) : Tied τ (.function f) (.function g)
  | iterator (kind : IteratorKind) {a : Addr} (h : τ.law.iterators a) :
      Tied τ (.iterator kind a) (.iterator kind (τ.iterators a))

theorem Value.Corresponds.tied (h : v.Corresponds τ.toCorrespondence w) (hobeys : v.Obeys τ.law) : v.Tied τ w := by
  induction h with
  | error _ ih => exact .error (ih hobeys)
  | function h => exact .function h hobeys
  | _ => constructor <;> exact hobeys

namespace Value.Tied

variable (h : v.Tied τ w)
include h

theorem corresponds : v.Corresponds τ.toCorrespondence w := by
  induction h with
  | error _ ih => exact .error ih
  | function h => exact .function h
  | _ => constructor

theorem obeys : v.Obeys τ.law := by
  induction h with
  | error _ ih => exact ih
  | undefined | int | float | char | bool | time => trivial
  | _ => assumption

theorem typeName_eq : w.typeName = v.typeName := h.corresponds.typeName_eq

theorem unwrap : ∃ n core core', v.unwrap = (n, core) ∧ w.unwrap = (n, core') ∧ core.Tied τ core' :=
  ⟨_, _, w.unwrap.2, rfl, Prod.ext h.corresponds.unwrap.1 rfl, h.corresponds.unwrap.2.tied h.obeys.unwrap⟩

theorem wrap (n : Nat) : (Value.wrap n v).Tied τ (Value.wrap n w) :=
  (h.corresponds.wrap n).tied (h.obeys.wrap n)

end Value.Tied

section Contents

theorem Pointwise.corresponds (h : Pointwise (Value.Tied τ) xs ys) :
    Pointwise (Value.Corresponds τ.toCorrespondence) xs ys :=
  h.imp fun _ _ => Value.Tied.corresponds

theorem Pointwise.tied (h : Pointwise (Value.Corresponds τ.toCorrespondence) xs ys) (hobeys : ∀ v ∈ xs, v.Obeys τ.law) :
    Pointwise (Value.Tied τ) xs ys :=
  (h.and hobeys).imp fun _ _ h => h.2.tied h.1

theorem Pointwise.obeys (h : Pointwise (Value.Tied τ) xs ys) : ∀ v ∈ xs, v.Obeys τ.law :=
  Pointwise.forall_left (h.imp fun _ _ h => ⟨h.obeys, h⟩)

theorem Dict.Pointwise.corresponds (h : Dict.Pointwise (Value.Tied τ) d e) :
    Dict.Pointwise (Value.Corresponds τ.toCorrespondence) d e :=
  List.Forall₂.imp (fun _ _ h => ⟨h.1, h.2.corresponds⟩) h

theorem Dict.Pointwise.obeys (h : Dict.Pointwise (Value.Tied τ) d e) : ∀ e ∈ d.entries, e.2.Obeys τ.law :=
  ((List.forall₂_and_left d.entries e.entries).1 (List.Forall₂.imp (fun _ _ h => ⟨h.2.obeys, h⟩) h)).1

end Contents

/-- Heaps that correspond, of which the first one obeys the law. -/
structure Heap.Tied (τ : Tie) (h1 h2 : Heap) : Prop where
  corresponds : h1.Corresponds τ.toCorrespondence h2
  obeys : h1.Obeys τ.law

namespace Heap.Tied

variable (hh : h1.Tied τ h2) {a : Addr}

include hh

theorem array (ha : τ.law.arrays a) : Pointwise (Value.Tied τ) (h1.array a) (h2.array (τ.arrays a)) :=
  (hh.corresponds.array a).tied (hh.obeys.items a ha)

theorem map (ha : τ.law.maps a) : Dict.Pointwise (Value.Tied τ) (h1.map a) (h2.map (τ.maps a)) :=
  List.Forall₂.imp (fun _ _ h => ⟨h.2.1, h.2.2.tied h.1⟩)
    ((List.forall₂_and_left _ _).2 ⟨hh.obeys.entries a ha, hh.corresponds.map a⟩)

theorem buffer (a : Addr) : h2.buffer (τ.buffers a) = h1.buffer a := hh.corresponds.buffer a

theorem pushArray (h : Pointwise (Value.Tied τ) xs ys) (hsize : τ.law.arraySize xs.size) :
    (h1.newArray xs).2.Tied τ (h2.newArray ys).2 :=
  ⟨hh.corresponds.pushArray h.corresponds, hh.obeys.pushArray hsize h.obeys⟩

theorem pushMap (h : Dict.Pointwise (Value.Tied τ) d e) : (h1.newMap d).2.Tied τ (h2.newMap e).2 :=
  ⟨hh.corresponds.pushMap h.corresponds, hh.obeys.pushMap h.obeys⟩

theorem setArray (h : Pointwise (Value.Tied τ) xs ys) (hsize : τ.law.arraySize xs.size) (a : Addr) :
    (h1.setArray a xs).Tied τ (h2.setArray (τ.arrays a) ys) := by
  rw [setArray_eq]
  exact ⟨hh.corresponds.modifyArray a fun _ _ _ => h.corresponds, hh.obeys.modifyArray a (fun _ => hsize) fun _ => h.obeys⟩

theorem setMap (h : Dict.Pointwise (Value.Tied τ) d e) (a : Addr) : (h1.setMap a d).Tied τ (h2.setMap (τ.maps a) e) := by
  rw [setMap_eq]
  exact ⟨hh.corresponds.modifyMap a fun _ _ _ => h.corresponds, hh.obeys.modifyMap a fun _ => h.obeys⟩

theorem modifyMap (ha : τ.law.maps a)
    (hf : ∀ {R : Value → Value → Prop} {d e}, Dict.Pointwise R d e → Dict.Pointwise R (f d) (f e)) :
    (h1.modifyMap a f).Tied τ (h2.modifyMap (τ.maps a) f) :=
  ⟨hh.corresponds.modifyMap a fun _ _ => hf, hh.obeys.modifyMap a fun _ => (hf (hh.map ha)).obeys⟩

end Heap.Tied

/-! ### Computations without the heap -/

/-- Two computations have related results or fail in the same way, unless the first one is excused. -/
inductive Agree {α β : Type} (τ : Tie) (R : α → β → Prop) : Except Fault α → Except Fault β → Prop where
  | ok {a : α} {b : β} (h : R a b) : Agree τ R (.ok a) (.ok b)
  | error {f : Fault} (hmild : f.isMild = true) : Agree τ R (.error f) (.error f)
  | excused {f : Fault} {y : Except Fault β} (h : τ.excused f) : Agree τ R (.error f) y

namespace Agree

variable {R : α → β → Prop} {R' : γ → δ → Prop}

theorem bind {x : Except Fault α} {y : Except Fault β} {f : α → Except Fault γ} {g : β → Except Fault δ}
    (hx : Agree τ R x y) (hf : ∀ a b, R a b → Agree τ R' (f a) (g b)) : Agree τ R' (x >>= f) (y >>= g) := by
  cases hx with
  | ok h => exact hf _ _ h
  | error hmild => exact .error hmild
  | excused h => exact .excused h

theorem bind_eq {x y : Except Fault α} {f : α → Except Fault γ} {g : α → Except Fault δ} (hx : Agree τ Eq x y)
    (hf : ∀ a, Agree τ R' (f a) (g a)) : Agree τ R' (x >>= f) (y >>= g) :=
  hx.bind fun a _ h => h ▸ hf a

theorem ite [Decidable p] {x x' : Except Fault α} {y y' : Except Fault β} (hx : Agree τ R x y) (hx' : Agree τ R x' y') :
    Agree τ R (if p then x else x') (if p then y else y') := by
  split
  · exact hx
  · exact hx'

end Agree

/-! ### Limits -/

/-- Ceilings on sizes correspond. -/
structure Limits.Corresponds (κ : Correspondence) (l1 l2 : Limits) : Prop where
  string : κ.Bounds .stringLimit l1.maxString l2.maxString
  bytes : κ.Bounds .bytesLimit l1.maxBytes l2.maxBytes
  array : κ.Bounds .arrayLimit l1.maxArray l2.maxArray

/-- Ceilings correspond, and the law permits what passes the first ones. -/
structure Limits.Tied (τ : Tie) (l1 l2 : Limits) : Prop extends l1.Corresponds τ.toCorrespondence l2 where
  permits : τ.law.Permits l1

/-- What passes a check is within the bound. -/
theorem agree_bound {f : Fault} (hmild : f.isMild = true) (h : τ.Bounds f m n) {k : Nat} {R : α → β → Prop}
    {x : Except Fault α} {y : Except Fault β} (hxy : k ≤ m → Agree τ R x y) :
    Agree τ R (if m < k then .error f else x) (if n < k then .error f else y) := by
  by_cases hlong : m < k
  · rw [if_pos hlong]
    rcases h with rfl | ⟨-, hexcused⟩
    · rw [if_pos hlong]
      exact .error hmild
    · exact .excused hexcused
  · have hle : m ≤ n := by
      rcases h with rfl | ⟨hle, -⟩
      · exact Nat.le_refl m
      · exact hle
    rw [if_neg hlong, if_neg (by omega)]
    exact hxy (Nat.not_lt.1 hlong)

namespace Limits.Tied

theorem checkString (h : l1.Tied τ l2) (n : Nat) :
    Agree τ (fun _ _ => n ≤ l1.maxString) (l1.checkString n) (l2.checkString n) :=
  agree_bound rfl h.string fun h => .ok h

theorem checkBytes (h : l1.Tied τ l2) (n : Nat) :
    Agree τ (fun _ _ => n ≤ l1.maxBytes) (l1.checkBytes n) (l2.checkBytes n) :=
  agree_bound rfl h.bytes fun h => .ok h

theorem checkArray (h : l1.Tied τ l2) (n : Nat) :
    Agree τ (fun _ _ => n ≤ l1.maxArray) (l1.checkArray n) (l2.checkArray n) :=
  agree_bound rfl h.array fun h => .ok h

end Limits.Tied

/-! ### Operations on the heap -/

/-- The captured variables and the identities of functions are as they were. -/
structure Heap.Keeps (h h' : Heap) : Prop where
  cells : h'.cells = h.cells
  functions : h'.functions = h.functions

theorem Heap.Keeps.refl (h : Heap) : h.Keeps h := ⟨rfl, rfl⟩

theorem Heap.Keeps.trans {h3 : Heap} (h : h1.Keeps h2) (h' : h2.Keeps h3) : h1.Keeps h3 :=
  ⟨h'.cells.trans h.cells, h'.functions.trans h.functions⟩

/-- Heaps after two operations. -/
structure HeapM.After (κ : Correspondence) (h1 h2 h1' h2' : Heap) : Prop where
  corresponds : h1'.Corresponds κ h2'
  left : h1.Keeps h1'
  right : h2.Keeps h2'

/-- Tied heaps after two operations. -/
structure HeapM.AfterBoth (τ : Tie) (h1 h2 h1' h2' : Heap) : Prop where
  tied : h1'.Tied τ h2'
  left : h1.Keeps h1'
  right : h2.Keeps h2'

theorem HeapM.AfterBoth.trans {h1' h2' h1'' h2'' : Heap} (h : HeapM.AfterBoth τ h1 h2 h1' h2')
    (h' : HeapM.AfterBoth τ h1' h2' h1'' h2'') : HeapM.AfterBoth τ h1 h2 h1'' h2'' :=
  ⟨h'.tied, h.left.trans h'.left, h.right.trans h'.right⟩

/-- Outcomes of two operations from tied heaps. -/
inductive HeapM.Outcome {α β : Type} (τ : Tie) (R : α → β → Prop) (h1 h2 : Heap) :
    EStateM.Result Fault Heap α → EStateM.Result Fault Heap β → Prop where
  | ok {a : α} {b : β} {h1' h2' : Heap} (h : R a b) (hafter : AfterBoth τ h1 h2 h1' h2') :
      Outcome τ R h1 h2 (.ok a h1') (.ok b h2')
  | error {f : Fault} {h1' h2' : Heap} (hmild : f.isMild = true) (hafter : AfterBoth τ h1 h2 h1' h2') :
      Outcome τ R h1 h2 (.error f h1') (.error f h2')
  | excused {f : Fault} {h1' : Heap} {r : EStateM.Result Fault Heap β} (h : τ.excused f) :
      Outcome τ R h1 h2 (.error f h1') r

/-- Two operations do the same to tied heaps. -/
def HeapM.Agree {α β : Type} (τ : Tie) (R : α → β → Prop) (x : HeapM α) (y : HeapM β) : Prop :=
  ∀ h1 h2, h1.Tied τ h2 → Outcome τ R h1 h2 (x h1) (y h2)

namespace HeapM.Agree

variable {R : α → β → Prop} {R' : γ → δ → Prop}

theorem pure {a : α} {b : β} (h : R a b) : Agree τ R (Pure.pure a) (Pure.pure b) :=
  fun h1 h2 hh => .ok h ⟨hh, .refl h1, .refl h2⟩

theorem throw {f : Fault} (hmild : f.isMild = true) : Agree τ R (throw f) (throw f) :=
  fun h1 h2 hh => .error hmild ⟨hh, .refl h1, .refl h2⟩

theorem bind {x : HeapM α} {y : HeapM β} {f : α → HeapM γ} {g : β → HeapM δ} (hx : Agree τ R x y)
    (hf : ∀ a b, R a b → Agree τ R' (f a) (g b)) : Agree τ R' (x >>= f) (y >>= g) := by
  intro h1 h2 hh
  have h := hx h1 h2 hh
  show Outcome τ R' h1 h2 (EStateM.bind x f h1) (EStateM.bind y g h2)
  simp only [EStateM.bind]
  generalize x h1 = r1, y h2 = r2 at h
  cases h with
  | ok hab hafter =>
    have hnext := hf _ _ hab _ _ hafter.tied
    dsimp only
    generalize f _ _ = r1, g _ _ = r2 at hnext
    cases hnext with
    | ok h hafter' => exact .ok h (hafter.trans hafter')
    | error hmild hafter' => exact .error hmild (hafter.trans hafter')
    | excused h => exact .excused h
  | error hmild hafter => exact .error hmild hafter
  | excused h => exact .excused h

theorem ite [Decidable p] {x x' : HeapM α} {y y' : HeapM β} (hx : Agree τ R x y) (hx' : Agree τ R x' y') :
    Agree τ R (if p then x else x') (if p then y else y') := by
  split
  · exact hx
  · exact hx'

theorem read {f : Heap → Except Fault α} {g : Heap → Except Fault β}
    (h : ∀ h1 h2, h1.Tied τ h2 → ScriptEngine.Agree τ R (f h1) (g h2)) : Agree τ R (HeapM.read f) (HeapM.read g) := by
  intro h1 h2 hh
  have h := h h1 h2 hh
  simp only [HeapM.read]
  generalize f h1 = r1, g h2 = r2 at h
  cases h with
  | ok h => exact .ok h ⟨hh, .refl h1, .refl h2⟩
  | error hmild => exact .error hmild ⟨hh, .refl h1, .refl h2⟩
  | excused h => exact .excused h

theorem ofExcept {x : Except Fault α} {y : Except Fault β} (h : ScriptEngine.Agree τ R x y) :
    Agree τ R (HeapM.ofExcept x) (HeapM.ofExcept y) := read fun _ _ _ => h

/-- Goes on with what the heap holds. -/
theorem get {f : Heap → HeapM α} {g : Heap → HeapM β}
    (h : ∀ h1 h2, h1.Tied τ h2 → Agree τ R (f h1) (g h2)) : Agree τ R (get >>= f) (get >>= g) :=
  fun h1 h2 hh => h h1 h2 hh h1 h2 hh

end HeapM.Agree

namespace HeapM.Agree

theorem bytes {content : Array UInt8} (hsize : τ.law.bufferSize content.size) :
    Agree τ (Value.Tied τ) (HeapM.bytes content) (HeapM.bytes content) := by
  intro h1 h2 hh
  refine .ok ?_ ⟨⟨hh.corresponds.pushBuffer content, hh.obeys.pushBuffer hsize⟩, ⟨rfl, rfl⟩, ⟨rfl, rfl⟩⟩
  show Value.Tied τ (.bytes h1.buffers.size) (.bytes (h2.buffers.size + 0))
  rw [← hh.corresponds.newBuffer 0]
  exact .bytes (hh.obeys.newBuffer 0)

/-- A new array, frozen or not. -/
theorem newArray {make : Addr → Value} (hmake : ∀ {a}, τ.law.arrays a → (make a).Tied τ (make (τ.arrays a)))
    (h : Pointwise (Value.Tied τ) xs ys) (hsize : τ.law.arraySize xs.size) : Agree τ (Value.Tied τ)
      (fun h => .ok (make h.arrays.size) (h.newArray xs).2) (fun h => .ok (make h.arrays.size) (h.newArray ys).2) := by
  intro h1 h2 hh
  have hnew := hmake (hh.obeys.newArray 0)
  rw [hh.corresponds.newArray 0] at hnew
  exact .ok hnew ⟨hh.pushArray h hsize, ⟨rfl, rfl⟩, ⟨rfl, rfl⟩⟩

theorem array (h : Pointwise (Value.Tied τ) xs ys) (hsize : τ.law.arraySize xs.size) :
    Agree τ (Value.Tied τ) (HeapM.array xs) (HeapM.array ys) := newArray .array h hsize

theorem frozenArray (h : Pointwise (Value.Tied τ) xs ys) (hsize : τ.law.arraySize xs.size) :
    Agree τ (Value.Tied τ) (HeapM.frozenArray xs) (HeapM.frozenArray ys) := newArray .frozenArray h hsize

/-- A new map, frozen or not. -/
theorem newMap {make : Addr → Value} (hmake : ∀ {a}, τ.law.maps a → (make a).Tied τ (make (τ.maps a)))
    (h : Dict.Pointwise (Value.Tied τ) d e) : Agree τ (Value.Tied τ)
      (fun h => .ok (make h.maps.size) (h.newMap d).2) (fun h => .ok (make h.maps.size) (h.newMap e).2) := by
  intro h1 h2 hh
  have hnew := hmake (hh.obeys.newMap 0)
  rw [hh.corresponds.newMap 0] at hnew
  exact .ok hnew ⟨hh.pushMap h, ⟨rfl, rfl⟩, ⟨rfl, rfl⟩⟩

theorem map (h : Dict.Pointwise (Value.Tied τ) d e) : Agree τ (Value.Tied τ) (HeapM.map d) (HeapM.map e) :=
  newMap .map h

theorem frozenMap (h : Dict.Pointwise (Value.Tied τ) d e) :
    Agree τ (Value.Tied τ) (HeapM.frozenMap d) (HeapM.frozenMap e) := newMap .frozenMap h

/-- A new iterator, wherever it stands. -/
theorem newIterator (kind : IteratorKind) {it it' : Iterator} (h : it.items.Corresponds τ.toCorrespondence it'.items)
    (hobeys : it.items.Obeys τ.law) (hmoved : it'.moved = it.moved) : Agree τ (Value.Tied τ)
      (fun h => .ok (.iterator kind h.iterators.size) (h.newIterator it).2)
      (fun h => .ok (.iterator kind h.iterators.size) (h.newIterator it').2) := by
  intro h1 h2 hh
  refine .ok ?_ ⟨⟨hh.corresponds.pushIterator h hmoved, hh.obeys.pushIterator hobeys⟩, ⟨rfl, rfl⟩, ⟨rfl, rfl⟩⟩
  show Value.Tied τ (.iterator kind h1.iterators.size) (.iterator kind (h2.iterators.size + 0))
  rw [← hh.corresponds.newIterator 0]
  exact .iterator kind (hh.obeys.newIterator 0)

theorem iterator (kind : IteratorKind) {items items' : IteratorItems}
    (h : items.Corresponds τ.toCorrespondence items') (hobeys : items.Obeys τ.law) :
    Agree τ (Value.Tied τ) (HeapM.iterator kind items) (HeapM.iterator kind items') := newIterator kind h hobeys rfl

/-- Changes tied heaps. -/
theorem change {f g : Heap → Heap} (h : ∀ h1 h2, h1.Tied τ h2 → AfterBoth τ h1 h2 (f h1) (g h2)) :
    Agree τ Eq (modify f) (modify g) :=
  fun h1 h2 hh => .ok rfl (h h1 h2 hh)

end HeapM.Agree

/-! ### Parts of values -/

namespace Value

variable {v' w' i j x y : Value}

theorem agree_asIndex (h : i.Tied τ j) : Agree τ Eq i.asIndex j.asIndex := by
  have hname := h.typeName_eq
  cases h with
  | int => exact .ok rfl
  | _ =>
    simp only [asIndex, hname]
    exact .error rfl

theorem agree_asKey (hh : h1.Tied τ h2) (h : i.Tied τ j) : Agree τ Eq (i.asKey h1) (j.asKey h2) := by
  have htext := h.corresponds.plainText_eq hh.corresponds
  cases h with
  | undefined => exact .error rfl
  | _ => exact .ok htext.symm

theorem agree_itemAt {R : α → β → Prop} {items : Array α} {items' : Array β} (h : Pointwise R items items')
    (hi : i.Tied τ j) : Agree τ R (itemAt items i) (itemAt items' j) := by
  refine (agree_asIndex hi).bind_eq fun k => ?_
  have hitem : Option.Rel R (itemAt? items k) (itemAt? items' k) := by
    simp only [itemAt?]
    split
    · exact h.getElem? _
    · exact .none
  generalize itemAt? items k = x, itemAt? items' k = y at hitem
  cases hitem with
  | some h => exact .ok h
  | none => exact .error rfl

/-- An item of a sequence that is the same on both sides. -/
theorem agree_itemAt_same (items : Array α) (hi : i.Tied τ j) : Agree τ Eq (itemAt items i) (itemAt items j) :=
  agree_itemAt (.refl fun _ _ => rfl) hi

/-- What is not there is undefined. -/
theorem agree_getD {R : α → β → Prop} {x : Option α} {y : Option β} {f : α → Value} {g : β → Value}
    (h : Option.Rel R x y) (hf : ∀ a b, R a b → (f a).Tied τ (g b)) :
    Agree τ (Value.Tied τ) (.ok ((x.map f).getD .undefined)) (.ok ((y.map g).getD .undefined)) := by
  cases h with
  | some h => exact .ok (hf _ _ h)
  | none => exact .ok .undefined

theorem agree_get (hh : h1.Tied τ h2) (hv : v.Tied τ w) (hi : i.Tied τ j) :
    Agree τ (Value.Tied τ) (v.get h1 i) (w.get h2 j) := by
  have hname := hv.typeName_eq
  cases hv with
  | array ha | frozenArray ha => exact agree_itemAt (hh.array ha) hi
  | map ha | frozenMap ha =>
    refine (agree_asKey hh hi).bind_eq fun key => ?_
    simpa [pure, Except.pure] using agree_getD (f := id) (g := id) ((hh.map ha).find? key) fun _ _ h => h
  | string => exact (agree_itemAt_same _ hi).bind_eq fun c => .ok (.char c)
  | bytes =>
    simp only [get, hh.buffer]
    exact (agree_itemAt_same _ hi).bind_eq fun c => .ok (.int _)
  | error h =>
    cases hi with
    | string =>
      simp only [get]
      split
      · exact .ok h
      · exact .error rfl
    | _ => exact .error rfl
  | undefined => exact .ok .undefined
  | _ =>
    simp only [get, hname]
    exact .error rfl

theorem agree_placeAt (size : Nat) (i : Int) : Agree τ Eq (placeAt size i) (placeAt size i) :=
  .ite (.ok rfl) (.error rfl)

theorem agree_change (hh : h1.Tied τ h2) (hv : v.Tied τ w) (hi : i.Tied τ j)
    (hx : x.Tied τ y) : Agree τ (fun f g => HeapM.AfterBoth τ h1 h2 (f h1) (g h2)) (v.change h1 i x)
      (w.change h2 j y) := by
  have hname := hv.typeName_eq
  cases hv with
  | @array a ha =>
    refine (agree_asIndex hi).bind_eq fun k => ?_
    rw [← (hh.array ha).size_eq]
    refine (agree_placeAt _ k).bind_eq fun k => ?_
    refine .ok ⟨⟨hh.corresponds.modifyArray a fun xs ys h => h.setIfInBounds k hx.corresponds, ?_⟩, ⟨rfl, rfl⟩, ⟨rfl, rfl⟩⟩
    refine hh.obeys.modifyArray a (fun _ => ?_) fun _ => ((hh.array ha).setIfInBounds k hx).obeys
    rw [Array.size_setIfInBounds]
    exact hh.obeys.array a ha
  | @map a ha =>
    refine (agree_asKey hh hi).bind_eq fun key => ?_
    refine .ok ⟨⟨hh.corresponds.modifyMap a fun d e h => h.insert key hx.corresponds, ?_⟩, ⟨rfl, rfl⟩, ⟨rfl, rfl⟩⟩
    exact hh.obeys.modifyMap a fun _ => ((hh.map ha).insert key hx).obeys
  | @bytes a ha =>
    refine (agree_asIndex hi).bind_eq fun k => ?_
    have hname := hx.typeName_eq
    cases hx with
    | int n =>
      simp only [hh.buffer]
      refine (agree_placeAt _ k).bind_eq fun k => ?_
      refine .ok ⟨⟨hh.corresponds.modifyBuffer a _, hh.obeys.modifyBuffer a fun hsize => ?_⟩, ⟨rfl, rfl⟩, ⟨rfl, rfl⟩⟩
      rwa [Array.size_setIfInBounds]
    | _ =>
      simp only [hname]
      exact .error rfl
  | _ =>
    simp only [change, hname]
    exact .error rfl

theorem agree_set (hv : v.Tied τ w) (hi : i.Tied τ j) (hx : x.Tied τ y) :
    HeapM.Agree τ Eq (v.set i x) (w.set j y) := by
  intro h1 h2 hh
  have h := agree_change hh hv hi hx
  simp only [set]
  generalize v.change h1 i x = r1, w.change h2 j y = r2 at h
  cases h with
  | ok h => exact .ok rfl h
  | error hmild => exact .error hmild ⟨hh, .refl h1, .refl h2⟩
  | excused h => exact .excused h

/-! ### Slices and iteration -/

theorem agree_asBound (length default : Nat) (h : i.Tied τ j) :
    Agree τ Eq (i.asBound length default) (j.asBound length default) := by
  have hname := h.typeName_eq
  cases h with
  | int | undefined => exact .ok rfl
  | _ =>
    simp only [asBound, hname]
    exact .error rfl

theorem agree_sliceBounds (length : Nat) (hi : i.Tied τ j) (hx : x.Tied τ y) :
    Agree τ Eq (sliceBounds length i x) (sliceBounds length j y) := by
  refine (agree_asBound length 0 hi).bind_eq fun lo => (agree_asBound length length hx).bind_eq fun hi => ?_
  exact .ite (.error rfl) (.ok rfl)

theorem agree_slice (hlaw : τ.law.Permits limits) (hv : v.Tied τ w) (hi : i.Tied τ j) (hx : x.Tied τ y) :
    HeapM.Agree τ (Value.Tied τ) (v.slice i x) (w.slice j y) := by
  have hname := hv.typeName_eq
  cases hv with
  | @array a ha | @frozenArray a ha =>
    refine HeapM.Agree.get fun h1 h2 hh => ?_
    dsimp only
    rw [← (hh.array ha).size_eq]
    refine (HeapM.Agree.ofExcept (agree_sliceBounds _ hi hx)).bind fun bounds bounds' hbounds => ?_
    subst hbounds
    refine .array ((hh.array ha).extract _ _) (hlaw.fewerItems _ _ (hh.obeys.array a ha) ?_)
    rw [Array.size_extract]
    omega
  | @string s hs =>
    refine (HeapM.Agree.ofExcept (agree_sliceBounds _ hi hx)).bind fun bounds bounds' hbounds => ?_
    subst hbounds
    refine .pure (.string (hlaw.substring s _ hs ?_))
    rw [String.toList_ofList]
    exact (List.take_sublist _ _).trans (List.drop_sublist _ _)
  | @bytes a ha =>
    refine HeapM.Agree.get fun h1 h2 hh => ?_
    rw [hh.buffer]
    refine (HeapM.Agree.ofExcept (agree_sliceBounds _ hi hx)).bind fun bounds bounds' hbounds => ?_
    subst hbounds
    refine .bytes (hlaw.fewerBytes _ _ (hh.obeys.buffer a ha) ?_)
    rw [Array.size_extract]
    omega
  | _ =>
    simp only [slice, hname]
    exact .throw rfl

theorem agree_iterate (hv : v.Tied τ w) : HeapM.Agree τ (Value.Tied τ) v.iterate w.iterate := by
  have hname := hv.typeName_eq
  cases hv with
  | @array a ha | @frozenArray a ha =>
    exact HeapM.Agree.get fun h1 h2 hh => .iterator _ (.array (hh.corresponds.array a)) (hh.obeys.items a ha)
  | @map a ha | @frozenMap a ha =>
    refine HeapM.Agree.get fun h1 h2 hh => .iterator _ (.map (hh.corresponds.map a)) fun e he => ?_
    exact hh.obeys.entries a ha e (List.mem_toArray.1 he)
  | string => exact .iterator .string (.string _) trivial
  | _ =>
    simp only [iterate, hname]
    exact .throw rfl

theorem agree_advance (hv : v.Tied τ w) : HeapM.Agree τ Eq v.advance w.advance := by
  cases hv with
  | @iterator kind a ha =>
    intro h1 h2 hh
    have hmoved := hh.corresponds.advanceIterator a
    refine .ok ?_ ⟨⟨hmoved, hh.obeys.advance a⟩, ⟨rfl, rfl⟩, ⟨rfl, rfl⟩⟩
    rw [hmoved.moved, (hmoved.items a).size_eq]
  | _ => exact .throw rfl

theorem rel_current? {R : α → β → Prop} {xs : Array α} {ys : Array β} (h : Pointwise R xs ys) (moved : Nat) :
    Option.Rel R (current? xs moved) (current? ys moved) := by
  simp only [current?]
  split
  · exact .none
  · exact h.getElem? _

/-- A key of a map can be any text. -/
theorem agree_iteratorKey (htext : ∀ s, τ.law.string s) (hh : h1.Tied τ h2) (hv : v.Tied τ w) :
    Agree τ (Value.Tied τ) (v.iteratorKey h1) (w.iteratorKey h2) := by
  cases hv with
  | @iterator kind a ha =>
    have hitems := hh.corresponds.items a
    simp only [iteratorKey, hh.corresponds.moved]
    generalize (h1.iterator a).items = xs, (h2.iterator (τ.iterators a)).items = ys at hitems
    cases hitems with
    | array | string => exact .ok (.int _)
    | map h => exact agree_getD (rel_current? h _) fun e e' he => he.1 ▸ .string (htext _)
  | _ =>
    exact .error rfl

theorem agree_iteratorValue (hh : h1.Tied τ h2) (hv : v.Tied τ w) :
    Agree τ (Value.Tied τ) (v.iteratorValue h1) (w.iteratorValue h2) := by
  have hname := hv.typeName_eq
  cases hv with
  | @iterator kind a ha =>
    have hitems := hh.corresponds.items a
    have hobeys := hh.obeys.iterator a ha
    simp only [iteratorValue, hh.corresponds.moved]
    generalize (h1.iterator a).items = xs, (h2.iterator (τ.iterators a)).items = ys at hitems hobeys
    cases hitems with
    | array h => simpa using agree_getD (f := id) (g := id) (rel_current? (h.tied hobeys) _) fun _ _ h => h
    | string => exact agree_getD (rel_current? (.refl fun _ _ => rfl) _) fun c c' hc => hc ▸ .char c
    | map h => exact agree_getD (rel_current? (h.and hobeys) _) fun e e' he => he.2.2.tied he.1
  | _ =>
    exact .error rfl

theorem agree_freeze (hv : v.Tied τ w) : HeapM.Agree τ (Value.Tied τ) v.freeze w.freeze := by
  cases hv with
  | array ha => exact HeapM.Agree.get fun h1 h2 hh => .frozenArray (hh.array ha) (hh.obeys.array _ ha)
  | map ha => exact HeapM.Agree.get fun h1 h2 hh => .frozenMap (hh.map ha)
  | _ => exact .pure (by constructor <;> assumption)

/-- Every step on the way to a part of a value. -/
theorem agree_path (hh : h1.Tied τ h2) {path path' : List Value}
    (h : List.Forall₂ (Value.Tied τ) path path') (hv : v.Tied τ w) :
    Agree τ (Value.Tied τ) (path.foldlM (fun v key => v.get h1 key) v)
      (path'.foldlM (fun v key => v.get h2 key) w) := by
  induction h generalizing v w with
  | nil => exact .ok hv
  | cons hkey _ ih => exact (agree_get hh hv hkey).bind fun x y hx => ih hx

/-! ### Operators -/

open Arithmetic

/-- What an operator gives on values without parts. -/
abbrev Optionally (τ : Tie) : Option Value → Option Value → Prop := Option.Rel (Value.Tied τ)

theorem agree_charOf (c : Int64) : Agree τ (Optionally τ) (charOf c) (charOf c) := by
  unfold charOf
  split
  · exact .ok (.some (.char _))
  · exact .error rfl

/-- Comparing gives a truth value. -/
theorem agree_compared (b : Option Bool) :
    Agree τ (Optionally τ) (.ok (b.map Value.bool)) (.ok (b.map Value.bool)) := by
  cases b with
  | none => exact .ok .none
  | some b => exact .ok (.some (.bool b))

theorem agree_onInts (op : Operator) (a b : Int64) : Agree τ (Optionally τ) (onInts op a b) (onInts op a b) := by
  unfold onInts
  split <;>
    first
    | exact .ok (.some (.int _))
    | exact .ite (.error rfl) (.ok (.some (.int _)))
    | exact agree_compared _

theorem agree_onFloats (op : Operator) (a b : Float) :
    Agree τ (Optionally τ) (.ok (onFloats op a b)) (.ok (onFloats op a b)) := by
  unfold onFloats
  split
  case h_5 => exact agree_compared _
  all_goals exact .ok (.some (.float _))

theorem agree_onCodes (op : Operator) (a b : Int64) : Agree τ (Optionally τ) (onCodes op a b) (onCodes op a b) := by
  unfold onCodes
  split
  · exact agree_charOf _
  · exact agree_charOf _
  · exact agree_compared _

theorem agree_shifted (t : Instant) (ns : Int) : Agree τ (Optionally τ) (shifted t ns) (shifted t ns) := by
  rw [shifted]
  cases t.shift? ns with
  | none => exact .error rfl
  | some u => exact .ok (.some (.time u))

section Limited

variable (hl : l1.Tied τ l2)

include hl

theorem agree_onStrings (op : Operator) (a b : String) :
    Agree τ (Optionally τ) (onStrings l1 op a b) (onStrings l2 op a b) := by
  unfold onStrings
  split
  · refine (hl.checkString _).bind fun _ _ hfits => .ok (.some (.string (hl.permits.string _ ?_)))
    rwa [String.utf8ByteSize_append]
  · exact agree_compared _

theorem agree_onAtoms (op : Operator) (hv : v.Tied τ w) (hv' : v'.Tied τ w') :
    Agree τ (Optionally τ) (onAtoms l1 op v v') (onAtoms l2 op w w') := by
  cases hv with
  | int a =>
    cases hv' with
    | int b => exact agree_onInts op a b
    | float b => exact agree_onFloats op _ b
    | char b => exact agree_onCodes op a _
    | _ => exact .ok .none
  | float a =>
    cases hv' with
    | int b => exact agree_onFloats op a _
    | float b => exact agree_onFloats op a b
    | _ => exact .ok .none
  | char a =>
    cases hv' with
    | int b => exact agree_onCodes op _ b
    | char b => exact agree_onCodes op _ _
    | _ => exact .ok .none
  | string =>
    cases hv' with
    | string => exact agree_onStrings hl op _ _
    | char c => exact .ite (agree_onStrings hl .add _ _) (.ok .none)
    | _ => exact .ok .none
  | time t =>
    cases hv' with
    | int n =>
      cases op with
      | add => exact agree_shifted t n.toInt
      | sub => exact agree_shifted t (-n.toInt)
      | _ => exact .ok .none
    | time u =>
      cases op with
      | sub => exact .ok (.some (.int _))
      | _ => exact agree_compared _
    | _ => exact .ok .none
  | _ => cases hv' <;> exact .ok .none

theorem agree_join (hv : v.Tied τ w) (hv' : v'.Tied τ w') :
    HeapM.Agree τ (Optionally τ) (v.join l1 v') (w.join l2 w') := by
  have harrays : ∀ {a b : Addr}, τ.law.arrays a → τ.law.arrays b → HeapM.Agree τ (Optionally τ) ((array a).join l1 (array b))
      ((array (τ.arrays a)).join l2 (array (τ.arrays b))) := by
    intro a b ha hb
    refine HeapM.Agree.get fun h1 h2 hh => ?_
    rw [← (hh.array ha).size_eq, ← (hh.array hb).size_eq]
    refine (HeapM.Agree.ofExcept (hl.checkArray _)).bind fun _ _ hfits => ?_
    refine (HeapM.Agree.array ((hh.array ha).append (hh.array hb)) (hl.permits.array _ ?_)).bind fun _ _ h =>
      .pure (.some h)
    rwa [Array.size_append]
  cases hv with
  | bytes =>
    cases hv' with
    | bytes =>
      refine HeapM.Agree.get fun h1 h2 hh => ?_
      rw [hh.buffer, hh.buffer]
      refine (HeapM.Agree.ofExcept (hl.checkBytes _)).bind fun _ _ hfits => ?_
      refine (HeapM.Agree.bytes (hl.permits.bytes _ ?_)).bind fun _ _ h => .pure (.some h)
      rwa [Array.size_append]
    | _ => exact .pure .none
  | array ha | frozenArray ha =>
    cases hv' with
    | array hb | frozenArray hb => exact harrays ha hb
    | _ => exact .pure .none
  | _ => exact .pure .none

theorem agree_binary (op : Operator) (hv : v.Tied τ w) (hv' : v'.Tied τ w') :
    HeapM.Agree τ (Value.Tied τ) (v.binary l1 op v') (w.binary l2 op w') := by
  rw [binary, binary, hv.typeName_eq, hv'.typeName_eq]
  refine (HeapM.Agree.ofExcept (agree_onAtoms hl op hv hv')).bind fun x y hx => ?_
  cases hx with
  | some h => exact .pure h
  | none =>
    refine HeapM.Agree.bind (.ite (agree_join hl hv hv') (.pure .none)) fun x y hx => ?_
    cases hx with
    | some h => exact .pure h
    | none => exact .throw rfl

end Limited

theorem agree_negate (hv : v.Tied τ w) : Agree τ (Value.Tied τ) v.negate w.negate := by
  have hname := hv.typeName_eq
  cases hv with
  | int a => exact .ok (.int _)
  | float a => exact .ok (.float _)
  | _ =>
    simp only [negate, hname]
    exact .error rfl

theorem agree_complement (hv : v.Tied τ w) : Agree τ (Value.Tied τ) v.complement w.complement := by
  have hname := hv.typeName_eq
  cases hv with
  | int a => exact .ok (.int _)
  | _ =>
    simp only [complement, hname]
    exact .error rfl

/-! ### Conversions -/

section

variable (hv : v.Tied τ w)
include hv

theorem Tied.toInt?_eq : w.toInt? = v.toInt? := by
  cases hv <;> rfl

theorem Tied.toFloat?_eq : w.toFloat? = v.toFloat? := by
  cases hv <;> rfl

theorem Tied.toChar?_eq : w.toChar? = v.toChar? := by
  cases hv <;> rfl

theorem Tied.toTime?_eq : w.toTime? = v.toTime? := by
  cases hv <;> rfl

end

/-- A text is given in full or not at all. -/
theorem agree_plainTextWithin (hh : h1.Tied τ h2) (hb : τ.Bounds .stringLimit m n) (hv : v.Tied τ w) :
    Agree τ (fun s t => s = t ∧ s.utf8ByteSize ≤ m) (v.plainTextWithin h1 m) (w.plainTextWithin h2 n) := by
  rw [plainTextWithin_eq, plainTextWithin_eq, hv.corresponds.plainText_eq hh.corresponds]
  simp only [← Nat.not_lt, ite_not]
  exact agree_bound rfl hb fun hfits => .ok ⟨rfl, Nat.not_lt.2 hfits⟩

end Value

/-! ### Laws -/

/-- Everything is tied to itself. -/
def ValueLaw.tie (law : ValueLaw) (globals : Nat) (allowed : Int) : Tie :=
  { Correspondence.unmoved fun _ => False with law, globals, allowed₁ := allowed, allowed₂ := allowed }

section Unmoved

variable {law : ValueLaw} {a : Int}

theorem Value.Obeys.tied (hv : v.Obeys law) : v.Tied (law.tie n a) v :=
  (Value.corresponds_unmoved_iff.2 rfl).tied hv

theorem Value.Obeys.tied_list {vs : List Value} (hvs : ∀ v ∈ vs, v.Obeys law) :
    List.Forall₂ (Value.Tied (law.tie n a)) vs vs := List.forall₂_same.2 fun v hv => (hvs v hv).tied

theorem Heap.Obeys.tied {h : Heap} (hh : h.Obeys law) : h.Tied (law.tie n a) h := ⟨h.corresponds_unmoved, hh⟩

theorem ValueLaw.Permits.tied (hlaw : law.Permits limits) : limits.Tied (law.tie n a) limits :=
  { string := .inl rfl, bytes := .inl rfl, array := .inl rfl, permits := hlaw }

/-- An operation that does the same to tied heaps keeps the law. -/
theorem HeapM.Agree.keeps {x : HeapM Value} (hx : HeapM.Agree (law.tie n a) (Value.Tied (law.tie n a)) x x) :
    HeapM.Keeps law (Value.Obeys law) x := by
  intro h hh
  have hboth := hx h h hh.tied
  refine ⟨fun v h' hr => ?_, fun c h' hr => ?_⟩
  · rw [hr] at hboth
    cases hboth with
    | ok hv hafter => exact ⟨hv.obeys, hafter.tied.obeys⟩
  · rw [hr] at hboth
    cases hboth with
    | error _ hafter => exact hafter.tied.obeys
    | excused h => exact h.elim

end Unmoved

end ScriptEngine
