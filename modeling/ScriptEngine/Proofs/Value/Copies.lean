import ScriptEngine.Proofs.Value.Operations
/-!
# Copies of corresponding values

Copies of corresponding values correspond. The two copies meet the same containers in the same order, so
what they have already copied corresponds entry by entry (`State.Tied`), and each makes its new
containers at the places where the other one has them.
-/

namespace ScriptEngine

variable {τ : Tie}

namespace Copy

variable {α β γ δ : Type} {R : α → β → Prop} {R' : γ → δ → Prop} {source1 source2 : Heap}

/-- What was copied and where the copy is, on the second side. -/
def moved (κ : Correspondence) : Container × Addr → Container × Addr
  | (.array a, b) => (.array (κ.arrays a), κ.arrays b)
  | (.map a, b) => (.map (κ.maps a), κ.maps b)

theorem moved_fst {κ : Correspondence} (e : Container × Addr) : (moved κ e).1 = e.1.moved κ := by
  obtain ⟨a | a, b⟩ := e <;> rfl

/-- The places of a law where a copy of a container can be. -/
def Place (law : ValueLaw) : Container → Addr → Prop
  | .array _ => law.arrays
  | .map _ => law.maps

/-- Two copies are equally far, and what was copied is at places of the law. -/
structure State.Tied (τ : Tie) (source1 source2 : Heap) (s1 s2 : State) : Prop where
  after : HeapM.AfterBoth τ source1 source2 s1.heap s2.heap
  seen : s2.seen = s1.seen.map (moved τ.toCorrespondence)
  places : ∀ e ∈ s1.seen, Place τ.law e.1 e.2

/-- Outcomes of two parts of copies. -/
structure Parallel (τ : Tie) (source1 source2 : Heap) (R : α → β → Prop) (r1 : α × State) (r2 : β × State) :
    Prop where
  result : R r1.1 r2.1
  state : r1.2.Tied τ source1 source2 r2.2

/-- Two parts of copies do the same. -/
def Follows (τ : Tie) (source1 source2 : Heap) (R : α → β → Prop) (x : CopyM α) (y : CopyM β) : Prop :=
  ∀ s1 s2 : State, s1.Tied τ source1 source2 s2 → Parallel τ source1 source2 R (x s1) (y s2)

namespace Follows

theorem pure {a : α} {b : β} (h : R a b) : Follows τ source1 source2 R (Pure.pure a) (Pure.pure b) :=
  fun _ _ hs => ⟨h, hs⟩

theorem bind {x : CopyM α} {y : CopyM β} {f : α → CopyM γ} {g : β → CopyM δ} (hx : Follows τ source1 source2 R x y)
    (hf : ∀ a b, R a b → Follows τ source1 source2 R' (f a) (g b)) :
    Follows τ source1 source2 R' (x >>= f) (y >>= g) := by
  intro s1 s2 hs
  have h := hx s1 s2 hs
  exact hf _ _ h.result _ _ h.state

/-- As many items come out as went in. -/
theorem each {copy : α → CopyM γ} {copy' : β → CopyM δ}
    (hcopy : ∀ a b, R a b → Follows τ source1 source2 R' (copy a) (copy' b)) {xs : List α} {ys : List β}
    (hxs : List.Forall₂ R xs ys) {done : Array γ} {done' : Array δ} (hdone : Pointwise R' done done') {n : Nat}
    (hn : done.size + xs.length = n) :
    Follows τ source1 source2 (fun zs zs' => Pointwise R' zs zs' ∧ zs.size = n) (Copy.each copy done xs)
      (Copy.each copy' done' ys) := by
  induction hxs generalizing done done' with
  | nil => exact pure ⟨hdone, hn⟩
  | cons h _ ih =>
    refine (hcopy _ _ h).bind fun y z hyz => ih (hdone.push hyz) ?_
    rwa [Array.size_push, Nat.add_assoc, Nat.add_comm 1]

end Follows

/-- The same containers were met on both sides. -/
theorem follows_known (c : Container) : Follows τ source1 source2
    (fun x y => y = x.map (fun b => (moved τ.toCorrespondence (c, b)).2) ∧ ∀ b ∈ x, Place τ.law c b) (known c)
    (known (c.moved τ.toCorrespondence)) := by
  intro s1 s2 hs
  refine ⟨?_, hs⟩
  have hsame : (fun e : Container × Addr => decide (e.1 = c.moved τ.toCorrespondence)) ∘ moved τ.toCorrespondence =
      fun e => decide (e.1 = c) := by
    funext e
    rw [Function.comp, moved_fst]
    exact decide_eq_decide.2 ⟨Container.moved_inj, congrArg (Container.moved τ.toCorrespondence)⟩
  rw [known_apply, known_apply, hs.seen, List.find?_map, hsame]
  cases hfound : s1.seen.find? (·.1 = c) with
  | none => exact ⟨rfl, by simp⟩
  | some e =>
    have hc : e.1 = c := by simpa using List.find?_some hfound
    subst hc
    refine ⟨rfl, fun b hb => ?_⟩
    cases hb
    exact hs.places e (List.mem_of_find?_eq_some hfound)

theorem follows_startArray (a : Addr) (hempty : τ.law.arraySize 0) : Follows τ source1 source2
    (fun b b' => b' = τ.arrays b ∧ τ.law.arrays b) (startArray (.array a)) (startArray (.array (τ.arrays a))) := by
  intro s1 s2 hs
  have htied := hs.after.tied
  have hnew : s2.heap.arrays.size = τ.arrays s1.heap.arrays.size := (htied.corresponds.newArray 0).symm
  refine ⟨⟨hnew, htied.obeys.newArray 0⟩, hs.after.trans ⟨htied.pushArray .empty hempty, ⟨rfl, rfl⟩, ⟨rfl, rfl⟩⟩, ?_,
    List.forall_mem_cons.2 ⟨htied.obeys.newArray 0, hs.places⟩⟩
  show (Container.array (τ.arrays a), s2.heap.arrays.size) :: s2.seen = _
  rw [hnew, hs.seen]
  rfl

theorem follows_startMap (a : Addr) : Follows τ source1 source2 (fun b b' => b' = τ.maps b ∧ τ.law.maps b)
    (startMap (.map a)) (startMap (.map (τ.maps a))) := by
  intro s1 s2 hs
  have htied := hs.after.tied
  have hnew : s2.heap.maps.size = τ.maps s1.heap.maps.size := (htied.corresponds.newMap 0).symm
  refine ⟨⟨hnew, htied.obeys.newMap 0⟩, hs.after.trans ⟨htied.pushMap .empty, ⟨rfl, rfl⟩, ⟨rfl, rfl⟩⟩, ?_,
    List.forall_mem_cons.2 ⟨htied.obeys.newMap 0, hs.places⟩⟩
  show (Container.map (τ.maps a), s2.heap.maps.size) :: s2.seen = _
  rw [hnew, hs.seen]
  rfl

theorem follows_setArray (b : Addr) {xs ys : Array Value} (h : Pointwise (Value.Tied τ) xs ys)
    (hsize : τ.law.arraySize xs.size) :
    Follows τ source1 source2 Eq (modify fun s => { s with heap := s.heap.setArray b xs })
      (modify fun s => { s with heap := s.heap.setArray (τ.arrays b) ys }) :=
  fun _ _ hs => ⟨rfl, hs.after.trans ⟨hs.after.tied.setArray h hsize b, ⟨rfl, rfl⟩, ⟨rfl, rfl⟩⟩, hs.seen, hs.places⟩

theorem follows_setMap (b : Addr) {d e : Dict Value} (h : Dict.Pointwise (Value.Tied τ) d e) :
    Follows τ source1 source2 Eq (modify fun s => { s with heap := s.heap.setMap b d })
      (modify fun s => { s with heap := s.heap.setMap (τ.maps b) e }) :=
  fun _ _ hs => ⟨rfl, hs.after.trans ⟨hs.after.tied.setMap h b, ⟨rfl, rfl⟩, ⟨rfl, rfl⟩⟩, hs.seen, hs.places⟩

/-- What has no parts to copy is made anew. -/
theorem follows_onHeap {f g : Heap → α × Heap} {R : α → α → Prop}
    (h : HeapM.Agree τ R (fun h => .ok (f h).1 (f h).2) fun h => .ok (g h).1 (g h).2) :
    Follows τ source1 source2 R (onHeap f) (onHeap g) := by
  intro s1 s2 hs
  cases h _ _ hs.after.tied with
  | ok hv hafter => exact ⟨hv, hs.after.trans hafter, hs.seen, hs.places⟩

section

variable {copy copy' : Value → CopyM Value}
  (hcopy : ∀ v w, v.Tied τ w → Follows τ source1 source2 (Value.Tied τ) (copy v) (copy' w))

include hcopy

theorem follows_copyArray (a : Addr) {xs ys : List Value} (h : List.Forall₂ (Value.Tied τ) xs ys)
    (hempty : τ.law.arraySize 0) (hsize : τ.law.arraySize xs.length) :
    Follows τ source1 source2 (Value.Tied τ) (copyArray copy a xs) (copyArray copy' (τ.arrays a) ys) := by
  refine (follows_known (.array a)).bind fun known known' hknown => ?_
  obtain ⟨rfl, hplace⟩ := hknown
  cases known with
  | some b => exact .pure (.array (hplace b rfl))
  | none =>
    refine (follows_startArray a hempty).bind fun b b' hb => ?_
    obtain ⟨rfl, hb⟩ := hb
    refine (Follows.each hcopy h .empty (Nat.zero_add _)).bind fun items items' hitems => ?_
    exact (follows_setArray b hitems.1 (hitems.2 ▸ hsize)).bind fun _ _ _ => .pure (.array hb)

theorem follows_copyMap (a : Addr) {xs ys : List (String × Value)}
    (h : List.Forall₂ (EntriesMatch (Value.Tied τ)) xs ys) :
    Follows τ source1 source2 (Value.Tied τ) (copyMap copy a xs) (copyMap copy' (τ.maps a) ys) := by
  refine (follows_known (.map a)).bind fun known known' hknown => ?_
  obtain ⟨rfl, hplace⟩ := hknown
  cases known with
  | some b => exact .pure (.map (hplace b rfl))
  | none =>
    refine (follows_startMap a).bind fun b b' hb => ?_
    obtain ⟨rfl, hb⟩ := hb
    have hentry : ∀ e e' : String × Value, EntriesMatch (Value.Tied τ) e e' →
        Follows τ source1 source2 (EntriesMatch (Value.Tied τ)) (do return (e.1, ← copy e.2))
          (do return (e'.1, ← copy' e'.2)) :=
      fun e e' he => (hcopy _ _ he.2).bind fun v w hvw => .pure ⟨he.1, hvw⟩
    refine (Follows.each hentry h .empty (Nat.zero_add _)).bind fun entries entries' hentries => ?_
    exact (follows_setMap b (.ofList hentries.1)).bind fun _ _ _ => .pure (.map hb)

end

/-- Copies with the same fuel correspond. -/
theorem follows_copyIn (hsource : source1.Tied τ source2) (hempty : τ.law.arraySize 0) (fuel : Nat) {v w : Value}
    (hv : v.Tied τ w) : Follows τ source1 source2 (Value.Tied τ) (copyIn source1 fuel v) (copyIn source2 fuel w) := by
  have hiterator : ∀ kind {a}, τ.law.iterators a → HeapM.Agree τ (Value.Tied τ) _ _ := fun kind a ha =>
    .newIterator kind (hsource.corresponds.items a) (hsource.obeys.iterator a ha) (hsource.corresponds.moved a)
  induction fuel generalizing v w with
  | zero =>
    obtain ⟨errors, core, core', hv, hw, hcore⟩ := hv.unwrap
    simp only [copyIn, hv, hw]
    cases hcore with
    | bytes ha =>
      simp only [hsource.buffer]
      exact (follows_onHeap (.bytes (hsource.obeys.buffer _ ha))).bind fun v w hvw => .pure (hvw.wrap _)
    | iterator kind ha => exact (follows_onHeap (hiterator kind ha)).bind fun v w hvw => .pure (hvw.wrap _)
    | _ => exact .pure (Value.Tied.wrap (by constructor <;> assumption) _)
  | succ fuel ih =>
    obtain ⟨errors, core, core', hv, hw, hcore⟩ := hv.unwrap
    simp only [copyIn, hv, hw]
    cases hcore with
    | array ha | frozenArray ha =>
      exact (follows_copyArray (fun _ _ => ih) _ (hsource.array ha) hempty (hsource.obeys.array _ ha)).bind
        fun v w hvw => .pure (hvw.wrap _)
    | map ha | frozenMap ha =>
      exact (follows_copyMap (fun _ _ => ih) _ (hsource.map ha)).bind fun v w hvw => .pure (hvw.wrap _)
    | bytes ha =>
      simp only [hsource.buffer]
      exact (follows_onHeap (.bytes (hsource.obeys.buffer _ ha))).bind fun v w hvw => .pure (hvw.wrap _)
    | iterator kind ha => exact (follows_onHeap (hiterator kind ha)).bind fun v w hvw => .pure (hvw.wrap _)
    | _ => exact .pure (Value.Tied.wrap (by constructor <;> assumption) _)

end Copy

theorem Value.agree_copy {v w : Value} (hempty : τ.law.arraySize 0) (hv : v.Tied τ w) :
    HeapM.Agree τ (Value.Tied τ) v.copy w.copy := by
  intro h1 h2 hh
  have hstart : Copy.State.Tied τ h1 h2 { heap := h1 } { heap := h2 } :=
    ⟨⟨hh, .refl h1, .refl h2⟩, rfl, by simp⟩
  have h := Copy.follows_copyIn hh hempty (max h1.depth h2.depth) hv _ _ hstart
  rw [Copy.copyIn_of_depth_le (le_max_left ..), Copy.copyIn_of_depth_le (le_max_right ..)] at h
  exact .ok h.result h.state.after

end ScriptEngine
