import ScriptEngine.Proofs.Builtins.Effects
/-!
# Copies are apart from their originals

Whatever is reached from a copy is new, and none of it is frozen. A change of containers is seen only from
values that lead to them (`Heap.KeepsBut.unchanged`). So no changes of a copy, however many, are seen from its
original, and none of the original from the copy; before any change the two are equal. Main statement:
`Value.copy_isolates`.
-/

namespace ScriptEngine

/-- A value is reached from another one through arrays, maps and errors. -/
abbrev Heap.Leads (h : Heap) : Value → Value → Prop := Relation.ReflTransGen h.Contains

/-- The container that holds the content of a value, as it would be if it were not frozen. -/
def Value.thawed? : Value → Option Value
  | .bytes a => some (.bytes a)
  | .array a | .frozenArray a => some (.array a)
  | .map a | .frozenMap a => some (.map a)
  | _ => none

/-- The content of a value, if it has one, is the same in two heaps. -/
def Heap.SameContent (h h' : Heap) : Value → Prop
  | .bytes a => h'.buffer a = h.buffer a
  | .array a | .frozenArray a => h'.array a = h.array a
  | .map a | .frozenMap a => h'.map a = h.map a
  | _ => True

/-- What is reached from a value is the same in two heaps. -/
def Heap.Unchanged (h h' : Heap) (v : Value) : Prop :=
  ∀ w, (h'.Leads v w ↔ h.Leads v w) ∧ (h.Leads v w → h.SameContent h' w)

/-- A container is changed: by an assignment to a part of it, by `splice` or by `delete`. -/
inductive Heap.Mutates (P : Value → Prop) (h h' : Heap) : Prop where
  | set {v index x : Value} (hv : P v) (hrun : v.set index x h = .ok () h')
  | splice {limits : Limits} {v r : Value} {args : List Value} (hv : P v)
      (hrun : Builtin.splice.call limits (v :: args) h = .ok r h')
  | delete {limits : Limits} {v r : Value} {args : List Value} (hv : P v)
      (hrun : Builtin.delete.call limits (v :: args) h = .ok r h')

/-- A value is not frozen, and its content exists in the second heap but not in the first. -/
def Heap.IsNew (h h' : Heap) : Value → Prop
  | .bytes a => h.buffers.size ≤ a ∧ a < h'.buffers.size
  | .array a => h.arrays.size ≤ a ∧ a < h'.arrays.size
  | .map a => h.maps.size ≤ a ∧ a < h'.maps.size
  | .frozenArray _ | .frozenMap _ => False
  | _ => True

/-! ### Changes and what they can be seen from -/

theorem Value.thawed?_thawed {v w : Value} (h : v.thawed? = some w) : w.thawed? = some w := by
  cases v <;> cases h <;> rfl

namespace Heap

variable {h h' : Heap} {changed : Value → Prop} {v w x : Value}

theorem SameContent.symm (hv : h.SameContent h' v) : h'.SameContent h v := by
  cases v <;> first | exact Eq.symm hv | exact trivial

theorem SameContent.contains (hv : h.SameContent h' v) (hw : h.Contains v w) : h'.Contains v w := by
  cases hw with
  | error => exact .error _
  | @item _ _ a hc hx =>
    have harray : h'.array a = h.array a := by cases v <;> cases hc <;> exact hv
    exact .item hc (harray ▸ hx)
  | @entry _ a e hc he =>
    have hmap : h'.map a = h.map a := by cases v <;> cases hc <;> exact hv
    exact .entry hc (hmap ▸ he)

theorem KeepsBut.sameContent (k : h.KeepsBut changed h') (hv : ∀ c, v.thawed? = some c → h.Holds c ∧ ¬ changed c) :
    h.SameContent h' v := by
  cases v with
  | bytes a => exact k.buffer_eq (hv _ rfl).1 (hv _ rfl).2
  | array a | frozenArray a => exact k.array_eq (hv _ rfl).1 (hv _ rfl).2
  | map a | frozenMap a => exact k.map_eq (hv _ rfl).1 (hv _ rfl).2
  | _ => exact trivial

/-- A change is not seen from a value that leads to none of the containers that are changed. -/
theorem KeepsBut.unchanged (k : h.KeepsBut changed h')
    (hv : ∀ w c, h.Leads v w → w.thawed? = some c → h.Holds c ∧ ¬ changed c) : h.Unchanged h' v := by
  have hsame : ∀ w, h.Leads v w → h.SameContent h' w := fun w hw => k.sameContent fun c => hv w c hw
  refine fun w => ⟨⟨fun hw => ?_, fun hw => ?_⟩, hsame w⟩
  · induction hw with
    | refl => exact .refl
    | tail _ hstep ih => exact ih.tail ((hsame _ ih).symm.contains hstep)
  · induction hw with
    | refl => exact .refl
    | tail hleads hstep ih => exact ih.tail ((hsame _ hleads).contains hstep)

theorem Holds.thawed? (hv : h.Holds v) (hw : v.thawed? = some w) : h.Holds w := by
  cases v <;> cases hw <;> exact hv

theorem KeepsBut.holds (k : h.KeepsBut changed h') (hv : h.Holds v) : h'.Holds v := by
  cases v with
  | bytes a => exact hv.trans_le k.buffers.size_le
  | array a | frozenArray a => exact hv.trans_le k.arrays.size_le
  | map a | frozenMap a => exact hv.trans_le k.maps.size_le
  | iterator kind a => exact hv.trans_le k.iterators.size_le
  | _ => exact trivial

theorem IsNew.thawed? (hv : h.IsNew h' v) (hw : v.thawed? = some w) : h'.Holds w ∧ ¬ h.Holds w := by
  cases v <;> cases hw <;> first | exact ⟨hv.2, Nat.not_lt.2 hv.1⟩ | exact hv.elim

theorem Mutates.keepsBut (hstep : h.Mutates changed h') : h.KeepsBut changed h' := by
  cases hstep with
  | @set v index x hv hrun =>
    rw [Value.set] at hrun
    cases hchange : Value.change h v index x with
    | error c =>
      rw [hchange] at hrun
      cases hrun
    | ok f =>
      rw [hchange] at hrun
      cases hrun
      exact (Value.change_sets_entry h v index x f hchange).1.mono fun w _ heq => heq ▸ hv
  | splice hv hrun | delete hv hrun => exact ((Builtin.confined_call _ _ _ h).1 _ _ hrun).mono fun w _ heq => heq.2 ▸ hv

/-- Changes one after the other, also of containers that were made in between. -/
theorem keepsBut_of_mutates (hrun : Relation.ReflTransGen (Mutates fun v => changed v ∨ ¬ h.Holds v) h h') :
    h.KeepsBut changed h' := by
  induction hrun with
  | refl => exact .refl h
  | tail _ hstep ih => exact ih.trans_new hstep.keepsBut fun v hv hc => hc.resolve_right (not_not_intro hv)

end Heap

/-! ### What is reached from a copy -/

namespace Copy

variable {source h : Heap} {ρ : Record} {v w x y : Value}

theorem exists_of_mem_right {α β : Type} {R : α → β → Prop} {xs : List α} {ys : List β} (h : List.Forall₂ R xs ys)
    {b : β} (hb : b ∈ ys) : ∃ a ∈ xs, R a b := by
  induction h with
  | nil => cases hb
  | cons hab _ ih =>
    rcases List.mem_cons.1 hb with rfl | hb
    · exact ⟨_, List.mem_cons_self .., hab⟩
    · obtain ⟨a, ha, hR⟩ := ih hb
      exact ⟨a, List.mem_cons_of_mem _ ha, hR⟩

variable (hf : Faithful source ρ (fun _ => False) h)
include hf

theorem Faithful.contains (hvw : IsCopy ρ v w) {w' : Value}
    (hw : h.Contains w w') : ∃ v', source.Contains v v' ∧ IsCopy ρ v' w' := by
  cases hvw with
  | atom hv => cases v <;> cases hw <;> first | exact hv.elim | contradiction
  | error hvw =>
    cases hw with
    | error => exact ⟨_, .error _, hvw⟩
    | item hc | entry hc => cases hc
  | @container _ c b hv hb =>
    have hfilled := hf.filled c b hb id
    cases c with
    | array a =>
      cases hw with
      | item hc hx =>
        cases hc
        obtain ⟨v', hv', hvw'⟩ := exists_of_mem_right hfilled hx
        exact ⟨v', .item hv hv', hvw'⟩
      | entry hc => cases hc
    | map a =>
      cases hw with
      | item hc => cases hc
      | entry hc he =>
        cases hc
        obtain ⟨e', he', hmatch⟩ := exists_of_mem_right hfilled he
        exact ⟨e'.2, .entry hv he', hmatch.2⟩
  | _ => cases hw <;> contradiction

theorem Faithful.leads (hxy : IsCopy ρ x y) (hw : h.Leads y w) : ∃ v, source.Leads x v ∧ IsCopy ρ v w := by
  induction hw with
  | refl => exact ⟨x, .refl, hxy⟩
  | tail _ hstep ih =>
    obtain ⟨v, hv, hvw⟩ := ih
    obtain ⟨v', hv', hvw'⟩ := hf.contains hvw hstep
    exact ⟨v', hv.tail hv', hvw'⟩

theorem Faithful.isNew (hvw : IsCopy ρ v w) : source.IsNew h w := by
  cases hvw with
  | atom hv => cases v <;> first | exact trivial | exact hv.elim
  | bytes hb => exact hf.newBytes _ _ hb
  | iterator | error => exact trivial
  | @container _ c b hv hb => cases c <;> exact hf.new _ _ hb

/-- A copy is equal to its original as long as neither is changed. -/
theorem Faithful.isBisimulation
    (hx : ∀ u, source.Leads x u → source.Holds u ∧ ∀ kind a, u ≠ .iterator kind a) (hnan : source.FreeOfNaN x) :
    h.IsBisimulation fun v w => IsCopy ρ v w ∧ source.Leads x v := by
  rintro v w ⟨hvw, hv⟩
  obtain ⟨hholds, hiterator⟩ := hx v hv
  cases hvw with
  | atom hatom =>
    cases v with
    | float f =>
      have hf : f ≠ Float.nan := by simpa [Float.isNaN_eq_decide_eq_nan] using hnan f hv
      exact .atom (.float (Float.beq_self_iff.2 hf))
    | native => exact .atom (.native rfl)
    | function => exact .atom (.function rfl)
    | bytes | array | frozenArray | map | frozenMap | error | iterator => exact hatom.elim
    | _ => exact .atom (by constructor)
  | @bytes a b hb =>
    refine .atom (.bytes ?_)
    rw [hf.content a b hb, hf.kept.buffer_eq hholds id]
  | iterator kind a b => exact absurd rfl (hiterator kind a)
  | error hvw => exact .error ⟨hvw, hv.tail (.error _)⟩
  | @container _ c b hc hb =>
    have hfilled := hf.filled c b hb id
    cases c with
    | array a =>
      have ha : a < source.arrays.size := by cases v <;> cases hc <;> exact hholds
      refine .contents (p := .arrays a b) hc rfl ?_
      rw [ContainerPair.Related, hf.kept.array_eq ha id]
      have hleads : ∀ u ∈ (source.array a).toList, source.Leads x u := fun u hu => hv.tail (.item hc hu)
      exact ((List.forall₂_and_left _ _).2 ⟨hleads, hfilled⟩).imp fun _ _ hu => hu.symm
    | map a =>
      have ha : a < source.maps.size := by cases v <;> cases hc <;> exact hholds
      refine .contents (p := .maps a b) hc rfl fun key => ?_
      rw [hf.kept.map_eq ha id]
      refine rel_imp (Dict.Pointwise.find? hfilled key) fun u u' hu _ huu' => ⟨huu', ?_⟩
      exact hv.tail (.entry hc (Dict.find?_eq_some_iff.1 hu))

end Copy

/-- A copy is made, and what existed is as before. All containers reached from the copy are new and not frozen;
changes of containers reached from it, or made since, are not seen from the original, and the other way round. The
copy is equal to the original, unless a NaN is reached from it. -/
theorem Value.copy_isolates (h : Heap) (x : Value)
    (hx : ∀ w, h.Leads x w → h.Holds w ∧ ∀ kind a, w ≠ .iterator kind a) :
    ∃ y h', x.copy h = .ok y h' ∧
      (∀ fuel, h.depth ≤ fuel → (Copy.copyIn h fuel x { heap := h }).1 = y ∧
        (Copy.copyIn h fuel x { heap := h }).2.heap = h') ∧
      h.KeepsBut (fun _ => False) h' ∧
      (∀ w, h'.Leads y w → h.IsNew h' w) ∧
      (∀ h'', Relation.ReflTransGen (Heap.Mutates fun v => h'.Leads y v ∨ ¬ h'.Holds v) h' h'' → h'.Unchanged h'' x) ∧
      (∀ h'', Relation.ReflTransGen (Heap.Mutates fun v => h'.Leads x v ∨ ¬ h'.Holds v) h' h'' → h'.Unchanged h'' y) ∧
      (h.FreeOfNaN x → x.equal h' y = true) := by
  obtain ⟨y, h', ρ, hcopy, hxy, hf⟩ := x.copy_faithful h
  have hnew : ∀ w, h'.Leads y w → h.IsNew h' w := fun w hw => by
    obtain ⟨v, -, hvw⟩ := hf.leads hxy hw
    exact hf.isNew hvw
  have hold : ∀ w, h'.Leads x w → h.Holds w := fun w hw =>
    (hx w (((hf.kept.unchanged fun w c hw hc => ⟨(hx w hw).1.thawed? hc, id⟩) w).1.1 hw)).1
  refine ⟨y, h', hcopy, fun fuel hfuel => ?_, hf.kept, hnew, fun h'' hrun => ?_, fun h'' hrun => ?_, fun hnan => ?_⟩
  · rw [Copy.copyIn_of_depth_le hfuel]
    cases hcopy
    exact ⟨rfl, rfl⟩
  · refine (Heap.keepsBut_of_mutates hrun).unchanged fun w c hw hc => ?_
    have hholds := (hold w hw).thawed? hc
    exact ⟨hf.kept.holds hholds, fun hy => ((hnew c hy).thawed? (Value.thawed?_thawed hc)).2 hholds⟩
  · refine (Heap.keepsBut_of_mutates hrun).unchanged fun w c hw hc => ?_
    obtain ⟨hholds, hnot⟩ := (hnew w hw).thawed? hc
    exact ⟨hholds, fun hleads => hnot (hold c hleads)⟩
  · exact Value.equal_iff_alike.2 (Alike.of_bisimulation (hf.isBisimulation hx hnan) ⟨hxy, .refl⟩)

/-- An array that contains itself and a frozen array of bytes. -/
theorem Value.copy_isolates_cycle :
    let h : Heap := { buffers := #[#[97]], arrays := #[#[.array 0, .frozenArray 1], #[.bytes 0]] }
    (∀ w, h.Leads (.array 0) w → h.Holds w ∧ ∀ kind a, w ≠ .iterator kind a) ∧ h.FreeOfNaN (.array 0) ∧
      ∃ y h', (Value.array 0).copy h = .ok y h' ∧ (∀ w, h'.Leads y w → h.IsNew h' w) ∧
        (Value.array 0).equal h' y = true := by
  intro h
  have hreached : ∀ w, h.Leads (.array 0) w → w = .array 0 ∨ w = .frozenArray 1 ∨ w = .bytes 0 := by
    intro w hw
    induction hw with
    | refl => exact .inl rfl
    | tail _ hstep ih =>
      rcases ih with rfl | rfl | rfl <;> cases hstep with
      | item hc hx => cases hc <;> simp [h, Heap.array] at hx <;> grind
      | entry hc => cases hc
  have hx : ∀ w, h.Leads (.array 0) w → h.Holds w ∧ ∀ kind a, w ≠ .iterator kind a := fun w hw => by
    rcases hreached w hw with rfl | rfl | rfl <;> exact ⟨by simp [h, Heap.Holds], by rintro _ _ ⟨⟩⟩
  have hnan : h.FreeOfNaN (.array 0) := fun x hw => by
    rcases hreached _ hw with hx | hx | hx <;> cases hx
  obtain ⟨y, h', hcopy, -, -, hnew, -, -, hequal⟩ := Value.copy_isolates h (.array 0) hx
  exact ⟨hx, hnan, y, h', hcopy, hnew, hequal hnan⟩

end ScriptEngine
