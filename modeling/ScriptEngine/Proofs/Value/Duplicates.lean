import ScriptEngine.Proofs.Value.Bisimilarity
import ScriptEngine.Proofs.Value.Effects
/-!
# What a copy is

A copy is made container by container, and a container that is entered is recorded as empty before its
contents are copied, so that cycles close. `Copy.Faithful` says what holds in between: all that existed is
as before, each recorded container has one new copy of its own, and the copies hold copies of the contents,
but for those that are still being made. Main statement: when a copy is done, none is left to be made
(`Value.copy_faithful`).
-/

namespace ScriptEngine

variable {pending : Container → Prop} {h h' source : Heap} {fuel : Nat} {α β : Type} {changed : Value → Prop}

variable {b : Addr} {c : Container} {ρ : Record} {s : State}

/-! ### Dictionaries without repeated keys -/

theorem Dict.entries_ofList {entries : List (String × α)} (h : (entries.map Prod.fst).Nodup) :
    (Dict.ofList entries).entries = entries := by
  suffices ∀ d : Dict α, (d.keys ++ entries.map Prod.fst).Nodup →
      (entries.foldl (fun d e => d.insert e.1 e.2) d).entries = d.entries ++ entries from this {} h
  induction entries with
  | nil => exact fun d _ => (List.append_nil _).symm
  | cons e rest ih =>
    intro d hd
    have hfresh : e.1 ∉ d.keys := fun hmem => (List.disjoint_of_nodup_append hd) hmem (List.mem_cons_self ..)
    have hinsert : (d.insert e.1 e.2).entries = d.entries ++ [e] := Entries.insert_of_notMem hfresh e.2
    have hkeys : (d.insert e.1 e.2).keys ++ rest.map Prod.fst = d.keys ++ (e :: rest).map Prod.fst := by
      rw [Dict.keys, hinsert, List.map_append, List.append_assoc]
      rfl
    rw [List.foldl_cons, ih (List.nodup_cons.1 h).2 _ (hkeys ▸ hd), hinsert, List.append_assoc]
    rfl

/-! ### Values and their copies -/

/-- A value that has neither parts nor a content. -/
def Value.IsAtom : Value → Prop
  | .undefined | .int _ | .float _ | .char _ | .bool _ | .string _ | .time _ | .native _ | .function _ => True
  | _ => False

/-- How many containers of the kind of one there are. -/
def Heap.countLike (h : Heap) : Container → Nat
  | .array _ => h.arrays.size
  | .map _ => h.maps.size

/-- The container of the same kind at another place. -/
def Container.atPlace : Container → Addr → Container
  | .array _, b => .array b
  | .map _, b => .map b

/-- A container as a value that is not frozen. -/
def Container.value : Container → Value
  | .array a => .array a
  | .map a => .map a

theorem Container.value_inj {d : Container} (h : c.value = d.value) : c = d := by
  cases c <;> cases d <;> cases h <;> rfl

theorem Heap.holds_atPlace : h.Holds (c.atPlace b).value ↔ b < h.countLike c := by
  cases c <;> rfl

/-- What errors are wrapped around is no error. -/
theorem Value.unwrap_ne_error (v e : Value) : v.unwrap.2 ≠ .error e := by
  induction v with
  | error v ih => exact ih
  | _ => rintro ⟨⟩

theorem keys_eq {R : α → β → Prop} {es : List (String × α)} {es' : List (String × β)}
    (h : List.Forall₂ (EntriesMatch R) es es') : es.map Prod.fst = es'.map Prod.fst := by
  induction h with
  | nil => rfl
  | cons he _ ih => rw [List.map_cons, List.map_cons, he.1, ih]

namespace Copy

/-- Which containers and which bytes were copied to which places. -/
structure Record where
  containers : List (Container × Addr) := []
  bytes : List (Addr × Addr) := []

/-- A record has grown. -/
structure Record.Grown (ρ ρ' : Record) : Prop where
  containers : ρ.containers <:+ ρ'.containers
  bytes : ρ.bytes <:+ ρ'.bytes

theorem Record.Grown.refl (ρ : Record) : ρ.Grown ρ := ⟨List.suffix_rfl, List.suffix_rfl⟩

theorem Record.Grown.trans {ρ1 ρ2 ρ3 : Record} (h : ρ1.Grown ρ2) (h' : ρ2.Grown ρ3) : ρ1.Grown ρ3 :=
  ⟨h.containers.trans h'.containers, h.bytes.trans h'.bytes⟩

/-- The copy of a value, by a record. The copy of a container is not frozen. -/
inductive IsCopy (ρ : Record) : Value → Value → Prop where
  | atom {v : Value} (hv : v.IsAtom) : IsCopy ρ v v
  | bytes {a b : Addr} (hb : (a, b) ∈ ρ.bytes) : IsCopy ρ (.bytes a) (.bytes b)
  | iterator (kind : IteratorKind) (a b : Addr) : IsCopy ρ (.iterator kind a) (.iterator kind b)
  | error {v w : Value} (hv : IsCopy ρ v w) : IsCopy ρ (.error v) (.error w)
  | container {v : Value} {c : Container} {b : Addr} (hv : v.container? = some c) (hb : (c, b) ∈ ρ.containers) :
      IsCopy ρ v (c.atPlace b).value

variable {ρ ρ' : Record} {v w : Value}

theorem IsCopy.grown (h : IsCopy ρ v w) (hρ : ρ.Grown ρ') : IsCopy ρ' v w := by
  induction h with
  | atom hv => exact .atom hv
  | bytes hb => exact .bytes (hρ.bytes.subset hb)
  | iterator kind a b => exact .iterator kind a b
  | error _ ih => exact .error ih
  | container hv hb => exact .container hv (hρ.containers.subset hb)

theorem IsCopy.wrap (h : IsCopy ρ v w) (n : Nat) : IsCopy ρ (Value.wrap n v) (Value.wrap n w) := by
  induction n with
  | zero => exact h
  | succ n ih => exact .error ih

/-- A container holds copies of what another one holds. -/
def Filled (ρ : Record) (source h : Heap) : Container → Addr → Prop
  | .array a, b => Pointwise (IsCopy ρ) (source.array a) (h.array b)
  | .map a, b => Dict.Pointwise (IsCopy ρ) (source.map a) (h.map b)

/-- The state of a copy of contents of `source`. The containers in `pending` are still being copied. -/
structure Faithful (source : Heap) (ρ : Record) (pending : Container → Prop) (h : Heap) : Prop where
  kept : source.KeepsBut (fun _ => False) h
  new : ∀ c b, (c, b) ∈ ρ.containers → source.countLike c ≤ b ∧ b < h.countLike c
  newBytes : ∀ a b, (a, b) ∈ ρ.bytes → source.buffers.size ≤ b ∧ b < h.buffers.size
  /-- Nothing is copied twice, and no two contents have one copy. -/
  once : ∀ c b b', (c, b) ∈ ρ.containers → (c, b') ∈ ρ.containers → b = b'
  apart : ∀ c c' b b', (c, b) ∈ ρ.containers → (c', b') ∈ ρ.containers → c.atPlace b = c'.atPlace b' → c = c'
  apartBytes : ∀ a a' b, (a, b) ∈ ρ.bytes → (a', b) ∈ ρ.bytes → a = a'
  filled : ∀ c b, (c, b) ∈ ρ.containers → ¬ pending c → Filled ρ source h c b
  content : ∀ a b, (a, b) ∈ ρ.bytes → h.buffer b = source.buffer a

theorem Filled.grown (hc : Filled ρ source h c b) (hρ : ρ.Grown ρ') : Filled ρ' source h c b := by
  cases c with
  | array a => exact List.Forall₂.imp (fun _ _ hx => hx.grown hρ) hc
  | map a => exact List.Forall₂.imp (fun _ _ hx => ⟨hx.1, hx.2.grown hρ⟩) hc

theorem Filled.later (hc : Filled ρ source h c b) (k : h.KeepsBut changed h') (hb : b < h.countLike c)
    (hnot : ¬ changed (c.atPlace b).value) : Filled ρ source h' c b := by
  cases c with
  | array a =>
    rw [Filled, k.array_eq hb hnot]
    exact hc
  | map a =>
    rw [Filled, k.map_eq hb hnot]
    exact hc

theorem countLike_le (k : h.KeepsBut changed h') (c : Container) : h.countLike c ≤ h'.countLike c := by
  cases c with
  | array => exact k.arrays.size_le
  | map => exact k.maps.size_le

namespace Faithful

/-- Nothing was copied yet. -/
theorem start (source : Heap) (pending : Container → Prop) : Faithful source {} pending source := by
  constructor
  case kept => exact .refl source
  all_goals simp

section

variable (hf : Faithful source ρ pending h)
include hf

/-- Allocations do not matter to the record. -/
theorem later (k : h.KeepsBut (fun _ => False) h') : Faithful source ρ pending h' where
  kept := hf.kept.trans k
  new c b hb := ⟨(hf.new c b hb).1, (hf.new c b hb).2.trans_le (countLike_le k c)⟩
  newBytes a b hb := ⟨(hf.newBytes a b hb).1, (hf.newBytes a b hb).2.trans_le k.buffers.size_le⟩
  once := hf.once
  apart := hf.apart
  apartBytes := hf.apartBytes
  filled c b hb hdone := (hf.filled c b hb hdone).later k (hf.new c b hb).2 id
  content a b hb := (k.buffer_eq (hf.newBytes a b hb).2 id).trans (hf.content a b hb)

/-- Bytes are copied. -/
theorem recordBytes (a : Addr) :
    Faithful source { ρ with bytes := (a, h.buffers.size) :: ρ.bytes } pending
      (h.newBuffer (source.buffer a)).2 := by
  have hl := hf.later (.newBuffer h (source.buffer a))
  refine { hl with newBytes := ?_, apartBytes := ?_, filled := ?_, content := ?_ }
  · intro a' b hb
    rcases List.mem_cons.1 hb with heq | hb
    · cases heq
      exact ⟨hf.kept.buffers.size_le, by simp [Heap.newBuffer]⟩
    · exact hl.newBytes a' b hb
  · intro a' a'' b hb hb'
    rcases List.mem_cons.1 hb with heq | hb <;> rcases List.mem_cons.1 hb' with heq' | hb'
    · cases heq
      cases heq'
      rfl
    · cases heq
      exact absurd (hf.newBytes _ _ hb').2 (Nat.lt_irrefl _)
    · cases heq'
      exact absurd (hf.newBytes _ _ hb).2 (Nat.lt_irrefl _)
    · exact hf.apartBytes a' a'' b hb hb'
  · exact fun c b hb hdone => (hl.filled c b hb hdone).grown ⟨List.suffix_rfl, List.suffix_cons ..⟩
  · intro a' b hb
    rcases List.mem_cons.1 hb with heq | hb
    · cases heq
      exact (getD_push ..).trans (if_pos rfl)
    · exact hl.content a' b hb

/-- A container is met for the first time, and gets a new one for its copy. -/
theorem record (hnew : ∀ b, (c, b) ∉ ρ.containers)
    (k : h.KeepsBut (fun _ => False) h') (hcount : h'.countLike c = h.countLike c + 1) :
    Faithful source { ρ with containers := (c, h.countLike c) :: ρ.containers } (fun d => pending d ∨ d = c) h' := by
  have hl := hf.later k
  refine { hl with new := ?_, once := ?_, apart := ?_, filled := ?_ }
  · intro d b hb
    rcases List.mem_cons.1 hb with heq | hb
    · obtain ⟨rfl, rfl⟩ := Prod.mk.inj heq
      exact ⟨countLike_le hf.kept d, hcount ▸ Nat.lt_succ_self _⟩
    · exact hl.new d b hb
  · intro d b b' hb hb'
    rcases List.mem_cons.1 hb with heq | hb <;> rcases List.mem_cons.1 hb' with heq' | hb'
    · cases heq
      cases heq'
      rfl
    · cases heq
      exact absurd hb' (hnew b')
    · cases heq'
      exact absurd hb (hnew b)
    · exact hf.once d b b' hb hb'
  · -- The new place is behind those of the other copies.
    have hbehind : ∀ d b, (d, b) ∈ ρ.containers → d.atPlace b ≠ c.atPlace (h.countLike c) := fun d b hb heq => by
      have hlt := (hf.new d b hb).2
      cases c <;> cases d <;> cases heq
      all_goals exact Nat.lt_irrefl _ hlt
    intro d d' b b' hb hb' hat
    rcases List.mem_cons.1 hb with heq | hb <;> rcases List.mem_cons.1 hb' with heq' | hb'
    · cases heq
      cases heq'
      rfl
    · cases heq
      exact absurd hat.symm (hbehind d' b' hb')
    · cases heq'
      exact absurd hat (hbehind d b hb)
    · exact hf.apart d d' b b' hb hb' hat
  · intro d b hb hdone
    obtain ⟨hdone, hne⟩ := not_or.1 hdone
    rcases List.mem_cons.1 hb with heq | hb
    · cases heq
      exact absurd rfl hne
    · exact (hl.filled d b hb hdone).grown ⟨List.suffix_cons .., List.suffix_rfl⟩

end

/-- The contents of a container were copied, and are put into its copy. -/
theorem fill (hf : Faithful source ρ (fun d => pending d ∨ d = c) h)
    (hb : (c, b) ∈ ρ.containers) (k : h.KeepsBut (· = (c.atPlace b).value) h') (hc : Filled ρ source h' c b) :
    Faithful source ρ pending h' where
  kept := hf.kept.trans_new k fun v hv heq => by
    subst heq
    exact absurd (hf.new c b hb).1 (Nat.not_le.2 (Heap.holds_atPlace.1 hv))
  new d b' hb' := ⟨(hf.new d b' hb').1, (hf.new d b' hb').2.trans_le (countLike_le k d)⟩
  newBytes a b' hb' := ⟨(hf.newBytes a b' hb').1, (hf.newBytes a b' hb').2.trans_le k.buffers.size_le⟩
  once := hf.once
  apart := hf.apart
  apartBytes := hf.apartBytes
  filled d b' hb' hdone := by
    by_cases hd : d = c
    · subst hd
      obtain rfl := hf.once d b b' hb hb'
      exact hc
    · refine (hf.filled d b' hb' (not_or.2 ⟨hdone, hd⟩)).later k (hf.new d b' hb').2 fun heq => hd ?_
      exact hf.apart d c b' b hb' hb (Container.value_inj heq)
  content a b' hb' := (k.buffer_eq (hf.newBytes a b' hb').2 (by cases c <;> rintro ⟨⟩)).trans (hf.content a b' hb')

end Faithful

/-! ### Making a copy -/

/-- What a part of a copy gives: from a record on, a longer one, and a result that is right by it. -/
def Attains (source : Heap) (ρ : Record) (pending : Container → Prop) (R : Record → α → Prop) (r : α × State) : Prop :=
  ∃ ρ', ρ.Grown ρ' ∧ r.2.seen = ρ'.containers ∧ Faithful source ρ' pending r.2.heap ∧ R ρ' r.1

/-- A part of a copy succeeds as long as few containers are left to meet. -/
def Copies (source : Heap) (fuel : Nat) (R : Record → α → Prop) (x : CopyM α) : Prop :=
  ∀ ρ pending s, s.seen = ρ.containers → Faithful source ρ pending s.heap → unseen source s < fuel →
    Attains source ρ pending R (x s)

theorem Attains.bind {R : Record → α → Prop} {R' : Record → β → Prop} {x : CopyM α} {f : α → CopyM β}
    (hx : Attains source ρ pending R (x s))
    (hf : ∀ ρ' y s', ρ.Grown ρ' → s'.seen = ρ'.containers → Faithful source ρ' pending s'.heap → R ρ' y →
      Attains source ρ' pending R' (f y s')) : Attains source ρ pending R' ((x >>= f) s) := by
  obtain ⟨ρ1, hgrown1, hseen1, hf1, hR1⟩ := hx
  obtain ⟨ρ2, hgrown2, hseen2, hf2, hR2⟩ := hf ρ1 _ _ hgrown1 hseen1 hf1 hR1
  exact ⟨ρ2, hgrown1.trans hgrown2, hseen2, hf2, hR2⟩

theorem Attains.imp {R R' : Record → α → Prop} {r : α × State} (h : Attains source ρ pending R r)
    (himp : ∀ ρ' a, R ρ' a → R' ρ' a) : Attains source ρ pending R' r := by
  obtain ⟨ρ', hgrown, hseen, hf, hR⟩ := h
  exact ⟨ρ', hgrown, hseen, hf, himp _ _ hR⟩

theorem Attains.pure {R : Record → α → Prop} {a : α} (hseen : s.seen = ρ.containers)
    (hf : Faithful source ρ pending s.heap) (ha : R ρ a) : Attains source ρ pending R ((Pure.pure a : CopyM α) s) :=
  ⟨ρ, .refl ρ, hseen, hf, ha⟩

/-- Items are copied in turn; those that were copied stay copies. -/
theorem attains_each {copy : α → CopyM β} {R : Record → α → β → Prop} {xs : List α}
    (hR : ∀ ρ ρ' x y, ρ.Grown ρ' → R ρ x y → R ρ' x y) (hcopy : ∀ x, Copies source fuel (R · x) (copy x))
    (hseen : s.seen = ρ.containers) (hf : Faithful source ρ pending s.heap) (hfuel : xs ≠ [] → unseen source s < fuel)
    {before : List α} {done : Array β} (hdone : List.Forall₂ (R ρ) before done.toList) :
    Attains source ρ pending (fun ρ' ys => List.Forall₂ (R ρ') (before ++ xs) ys.toList) (each copy done xs s) := by
  induction xs generalizing ρ s before done with
  | nil =>
    rw [List.append_nil]
    exact .pure hseen hf hdone
  | cons x xs ih =>
    have hlt := hfuel (List.cons_ne_nil x xs)
    refine (hcopy x ρ pending s hseen hf hlt).bind fun ρ' y s' hgrown hseen' hf' hy => ?_
    have hpush : List.Forall₂ (R ρ') (before ++ [x]) (done.push y).toList := by
      rw [Array.toList_push]
      exact List.rel_append (hdone.imp fun _ _ => hR _ _ _ _ hgrown) (.cons hy .nil)
    have hle : unseen source s' ≤ unseen source s := unseen_le (by rw [hseen, hseen']; exact hgrown.containers)
    have h := ih hseen' hf' (fun _ => hle.trans_lt hlt) hpush
    rwa [List.append_assoc] at h

theorem mem_of_known {e : Container × Addr} (h : s.seen.find? (·.1 = c) = some e) : (c, e.2) ∈ s.seen := by
  have hc : e.1 = c := by simpa using List.find?_some h
  exact hc ▸ List.mem_of_find?_eq_some h

/-- A container is met for the first time: it is recorded, what it holds is copied, and its copy is filled. -/
theorem attains_entered {γ : Type} (c : Container) (R : Record → γ → Prop) (x : CopyM γ)
    (fill : γ → Heap → Heap) {h1 : Heap} (hseen : s.seen = ρ.containers) (hf : Faithful source ρ pending s.heap)
    (hnew : s.seen.find? (·.1 = c) = none) (k : s.heap.KeepsBut (fun _ => False) h1)
    (hcount : h1.countLike c = s.heap.countLike c + 1)
    (hx : ∀ ρ', ρ'.containers = (c, s.heap.countLike c) :: s.seen →
      Faithful source ρ' (fun d => pending d ∨ d = c) h1 → Attains source ρ' (fun d => pending d ∨ d = c) R
        (x ⟨h1, (c, s.heap.countLike c) :: s.seen⟩))
    (hfill : ∀ ρ' y h, R ρ' y → s.heap.countLike c < h.countLike c →
      h.KeepsBut (· = (c.atPlace (s.heap.countLike c)).value) (fill y h) ∧
        Filled ρ' source (fill y h) c (s.heap.countLike c)) :
    Attains source ρ pending (fun ρ' w => ∃ b, (c, b) ∈ ρ'.containers ∧ w = (c.atPlace b).value)
      ((do
        let y ← x
        modify fun s => { s with heap := fill y s.heap }
        return (c.atPlace (s.heap.countLike c)).value : CopyM Value) ⟨h1, (c, s.heap.countLike c) :: s.seen⟩) := by
  have hfresh : ∀ b, (c, b) ∉ ρ.containers := fun b hb => by
    simpa using List.find?_eq_none.1 hnew (c, b) (hseen ▸ hb)
  obtain ⟨ρ2, hgrown, hseen2, hf2, hR⟩ := hx _ (congrArg _ hseen.symm) (hf.record hfresh k hcount)
  have hmem : (c, s.heap.countLike c) ∈ ρ2.containers := hgrown.containers.subset (List.mem_cons_self ..)
  obtain ⟨hkeeps, hfilled⟩ := hfill ρ2 _ _ hR (hf2.new _ _ hmem).2
  refine ⟨ρ2, ?_, hseen2, hf2.fill hmem hkeeps hfilled, _, hmem, rfl⟩
  exact ⟨(List.suffix_cons ..).trans hgrown.containers, hgrown.bytes⟩

section

variable {copy : Value → CopyM Value} (hcopy : ∀ v, Copies source fuel (IsCopy · v) (copy v))

include hcopy

theorem copies_copyArray (a : Addr) :
    Copies source (fuel + 1) (fun ρ w => ∃ b, (.array a, b) ∈ ρ.containers ∧ w = .array b)
      (copyArray copy a (source.array a).toList) := by
  intro ρ pending s hseen hf hfuel
  rw [copyArray, bind_apply, known_apply]
  cases hfound : s.seen.find? (·.1 = .array a) with
  | some e => exact .pure hseen hf ⟨e.2, hseen ▸ mem_of_known hfound, rfl⟩
  | none =>
    refine attains_entered (.array a) (fun ρ ys => List.Forall₂ (IsCopy ρ) (source.array a).toList ys.toList)
      (each copy #[] (source.array a).toList) (fun items h => h.setArray s.heap.arrays.size items) hseen hf hfound
      (.newArray _ #[]) (Array.size_push _) (fun ρ' hseen' hf' => ?_) fun ρ' items h hitems hb => ⟨.setArray ?_ h items, ?_⟩
    · refine attains_each (fun _ _ _ _ hgrown hv => hv.grown hgrown) hcopy hseen'.symm hf' (fun hne => ?_) .nil
      exact unseen_startArray hfuel hne hfound
    · rfl
    · have hset := h.array_setArray (a := s.heap.arrays.size) hb items
      show Pointwise (IsCopy ρ') (source.array a) ((h.setArray s.heap.arrays.size items).array s.heap.arrays.size)
      rwa [hset]

theorem copies_copyMap (a : Addr) :
    Copies source (fuel + 1) (fun ρ w => ∃ b, (.map a, b) ∈ ρ.containers ∧ w = .map b)
      (copyMap copy a (source.map a).entries) := by
  intro ρ pending s hseen hf hfuel
  rw [copyMap, bind_apply, known_apply]
  cases hfound : s.seen.find? (·.1 = .map a) with
  | some e => exact .pure hseen hf ⟨e.2, hseen ▸ mem_of_known hfound, rfl⟩
  | none =>
    refine attains_entered (.map a) (fun ρ ys => List.Forall₂ (EntriesMatch (IsCopy ρ)) (source.map a).entries ys.toList)
      (each (fun e => do return (e.1, ← copy e.2)) #[] (source.map a).entries)
      (fun entries h => h.setMap s.heap.maps.size (Dict.ofList entries.toList)) hseen hf hfound
      (.newMap _ {}) (Array.size_push _) (fun ρ' hseen' hf' => ?_) fun ρ' entries h hentries hb => ⟨.setMap ?_ h _, ?_⟩
    · have hentry : ∀ e, Copies source fuel (fun ρ => EntriesMatch (IsCopy ρ) e) (do return (e.1, ← copy e.2)) :=
        fun e ρ pending s hseen hf hfuel =>
          (hcopy e.2 ρ pending s hseen hf hfuel).bind fun ρ' w s' _ hseen' hf' hw => .pure hseen' hf' ⟨rfl, hw⟩
      refine attains_each (fun _ _ _ _ hgrown he => ⟨he.1, he.2.grown hgrown⟩) hentry hseen'.symm hf' (fun hne => ?_) .nil
      exact unseen_startMap hfuel hne hfound
    · rfl
    · have hnodup : (entries.toList.map Prod.fst).Nodup := keys_eq hentries ▸ (source.map a).nodup
      have hset := h.map_setMap (a := s.heap.maps.size) hb (Dict.ofList entries.toList)
      show List.Forall₂ _ _ ((h.setMap s.heap.maps.size (Dict.ofList entries.toList)).map s.heap.maps.size).entries
      rwa [hset, Dict.entries_ofList hnodup]

end

/-- With fuel for all containers that were not met yet, the result is a copy. -/
theorem copies_copyIn (fuel : Nat) (v : Value) : Copies source fuel (IsCopy · v) (copyIn source fuel v) := by
  induction fuel generalizing v with
  | zero => exact fun ρ pending s _ _ hfuel => absurd hfuel (Nat.not_lt_zero _)
  | succ fuel ih =>
    intro ρ pending s hseen hf hfuel
    have hwrapped : ∀ {core : Value} {x : CopyM Value} {errors : Nat}, Attains source ρ pending (IsCopy · core) (x s) →
        Attains source ρ pending (IsCopy · (Value.wrap errors core)) ((do return Value.wrap errors (← x) : CopyM Value) s) :=
      fun hx => hx.bind fun ρ' w s' _ hseen' hf' hw => .pure hseen' hf' (hw.wrap _)
    rw [copyIn]
    have hcore := Value.unwrap_ne_error v
    have hv := Value.wrap_unwrap v
    generalize v.unwrap = unwrapped at hcore hv
    obtain ⟨errors, core⟩ := unwrapped
    obtain rfl := hv
    cases core with
    | error e => exact absurd rfl (hcore e)
    | array a | frozenArray a =>
      refine hwrapped ((copies_copyArray ih a ρ pending s hseen hf hfuel).imp ?_)
      rintro ρ' w ⟨b, hb, rfl⟩
      exact .container rfl hb
    | map a | frozenMap a =>
      refine hwrapped ((copies_copyMap ih a ρ pending s hseen hf hfuel).imp ?_)
      rintro ρ' w ⟨b, hb, rfl⟩
      exact .container rfl hb
    | bytes a =>
      refine hwrapped ⟨{ ρ with bytes := (a, s.heap.buffers.size) :: ρ.bytes }, ⟨List.suffix_rfl, List.suffix_cons ..⟩,
        hseen, hf.recordBytes a, ?_⟩
      exact .bytes (List.mem_cons_self ..)
    | iterator kind a => exact hwrapped ⟨ρ, .refl ρ, hseen, hf.later (.newIterator _ _), .iterator kind a _⟩
    | _ => exact hwrapped (.pure hseen hf (.atom trivial))

end Copy

/-- A copy is made of new containers, one for each that the value leads to. -/
theorem Value.copy_faithful (h : Heap) (x : Value) : ∃ y h' ρ,
    x.copy h = .ok y h' ∧ Copy.IsCopy ρ x y ∧ Copy.Faithful h ρ (fun _ => False) h' := by
  have hfuel := Copy.unseen_lt_depth h { heap := h }
  obtain ⟨ρ, -, -, hf, hcopy⟩ := Copy.copies_copyIn h.depth x {} (fun _ => False) { heap := h } rfl (.start h _) hfuel
  exact ⟨_, _, ρ, rfl, hcopy, hf⟩

end ScriptEngine
