import ScriptEngine.Proofs.Value.Depth
/-!
# Equality is bisimilarity

Containers may contain each other and themselves, so what two values have in common cannot be said by
recursion on them. A bisimulation is a relation that looks one step into the values it relates
(`Value.Matches`). Main statement: `==` of the scripting language is the largest one
(`Value.equal_is_bisimilarity`), although a comparison takes pairs that are under comparison for equal and
forgets them afterwards.

What carries the proof are finite approximations: `Value.Alike h n` looks `n` steps deep. A comparison whose
pairs under comparison are alike to some depth finds only values alike to that depth; by induction on the
depth, a pair that is entered may itself be taken for alike to the depth before.
-/

namespace ScriptEngine

variable {p q : ContainerPair} {h : Heap} {n : Nat} {x y : Option Value} {v w : Value} {R : Value → Value → Prop}

/-! ### One step into values -/

/-- The container that a value is, frozen or not. -/
def Value.container? : Value → Option Container
  | .array a | .frozenArray a => some (.array a)
  | .map a | .frozenMap a => some (.map a)
  | _ => none

namespace ContainerPair

def left : ContainerPair → Container
  | .arrays a _ => .array a
  | .maps a _ => .map a

def right : ContainerPair → Container
  | .arrays _ b => .array b
  | .maps _ b => .map b

def swap : ContainerPair → ContainerPair
  | .arrays a b => .arrays b a
  | .maps a b => .maps b a

/-- The contents of two containers are related: items one by one, entries key by key in any order. -/
def Related (h : Heap) (R : Value → Value → Prop) : ContainerPair → Prop
  | .arrays a b => List.Forall₂ R (h.array a).toList (h.array b).toList
  | .maps a b => ∀ key, Option.Rel R ((h.map a).find? key) ((h.map b).find? key)

end ContainerPair

/-- Equal values that have no parts. -/
inductive Value.SameAtom (h : Heap) : Value → Value → Prop where
  | undefined : SameAtom h .undefined .undefined
  | int (n : Int64) : SameAtom h (.int n) (.int n)
  | float {x y : Float} (hxy : (x == y) = true) : SameAtom h (.float x) (.float y)
  | char (c : Char) : SameAtom h (.char c) (.char c)
  | bool (b : Bool) : SameAtom h (.bool b) (.bool b)
  | string (s : String) : SameAtom h (.string s) (.string s)
  | bytes {a b : Addr} (hab : h.buffer a = h.buffer b) : SameAtom h (.bytes a) (.bytes b)
  | time (t : Instant) : SameAtom h (.time t) (.time t)
  | native {f g : Native} (hname : f.name = g.name) : SameAtom h (.native f) (.native g)
  | function {f g : Function} (hid : f.id = g.id) : SameAtom h (.function f) (.function g)
  | iterator (kind : IteratorKind) (a : Addr) : SameAtom h (.iterator kind a) (.iterator kind a)

/-- Values that agree one step deep and have related parts. -/
inductive Value.Matches (h : Heap) (R : Value → Value → Prop) : Value → Value → Prop where
  | atom {v w : Value} (hvw : v.SameAtom h w) : Matches h R v w
  | error {v w : Value} (hvw : R v w) : Matches h R (.error v) (.error w)
  | identical {v : Value} {c : Container} (hv : v.container? = some c) : Matches h R v v
  | contents {v w : Value} {p : ContainerPair} (hv : v.container? = some p.left) (hw : w.container? = some p.right)
      (hp : p.Related h R) : Matches h R v w

/-- A relation between values that looks into them. -/
def Heap.IsBisimulation (h : Heap) (R : Value → Value → Prop) : Prop := ∀ v w, R v w → v.Matches h R w

/-- A value directly contains another one. -/
inductive Heap.Contains (h : Heap) : Value → Value → Prop where
  | item {v x : Value} {a : Addr} (hv : v.container? = some (.array a)) (hx : x ∈ (h.array a).toList) :
      Contains h v x
  | entry {v : Value} {a : Addr} {e : String × Value} (hv : v.container? = some (.map a))
      (he : e ∈ (h.map a).entries) : Contains h v e.2
  | error (v : Value) : Contains h (.error v) v

section Relations

variable {S T : Value → Value → Prop} {u : Value}

/-! ### Related contents -/

theorem rel_imp (hxy : Option.Rel R x y) (himp : ∀ a b, x = some a → y = some b → R a b → S a b) :
    Option.Rel S x y := by
  cases hxy with
  | some hab => exact .some (himp _ _ rfl rfl hab)
  | none => exact .none

theorem rel_flip (hxy : Option.Rel R x y) : Option.Rel (fun a b => R b a) y x := by
  cases hxy with
  | some hab => exact .some hab
  | none => exact .none

theorem rel_comp {z : Option Value} (hxy : Option.Rel R x y) (hyz : Option.Rel R y z)
    (htrans : ∀ a b c, R a b → R b c → R a c) : Option.Rel R x z := by
  cases hxy with
  | some hab =>
    cases hyz with
    | some hbc => exact .some (htrans _ _ _ hab hbc)
  | none =>
    cases hyz with
    | none => exact .none

namespace ContainerPair

@[simp]
theorem left_swap (p : ContainerPair) : p.swap.left = p.right := by
  cases p <;> rfl

@[simp]
theorem right_swap (p : ContainerPair) : p.swap.right = p.left := by
  cases p <;> rfl

section

variable (hp : p.Related h R)
include hp

/-- Containers that have contents are in the heap. -/
theorem Related.imp_of_mem (himp : p ∈ h.containerPairs → ∀ x y, R x y → S x y) : p.Related h S := by
  cases p with
  | arrays a b =>
    rw [Related, List.forall₂_iff_get] at hp ⊢
    refine ⟨hp.1, fun i hi hi' => himp ?_ _ _ (hp.2 i hi hi')⟩
    simp [Heap.containerPairs, Heap.lt_size_of_mem_array (List.get_mem _ ⟨i, hi⟩),
      Heap.lt_size_of_mem_array (List.get_mem _ ⟨i, hi'⟩)]
  | maps a b =>
    refine fun key => rel_imp (hp key) fun x y hx hy hxy => himp ?_ x y hxy
    simp [Heap.containerPairs, Heap.lt_size_of_mem_map (Dict.find?_eq_some_iff.1 hx),
      Heap.lt_size_of_mem_map (Dict.find?_eq_some_iff.1 hy)]

theorem Related.mono (himp : ∀ x y, R x y → S x y) : p.Related h S :=
  hp.imp_of_mem fun _ => himp

theorem Related.flip : p.swap.Related h fun x y => R y x := by
  cases p with
  | arrays a b => exact List.Forall₂.flip hp
  | maps a b => exact fun key => rel_flip (hp key)

theorem Related.trans (hq : q.Related h R) (hpq : p.right = q.left)
    (htrans : ∀ x y z, R x y → R y z → R x z) :
    ∃ r : ContainerPair, r.left = p.left ∧ r.right = q.right ∧ r.Related h R := by
  cases p with
  | arrays a b =>
    cases q with
    | arrays b' c =>
      cases hpq
      rw [Related, List.forall₂_iff_get] at hp hq
      refine ⟨.arrays a c, rfl, rfl, ?_⟩
      rw [Related, List.forall₂_iff_get]
      exact ⟨hp.1.trans hq.1, fun i hi hi' => htrans _ _ _ (hp.2 i hi (hp.1 ▸ hi)) (hq.2 i (hp.1 ▸ hi) hi')⟩
    | maps => cases hpq
  | maps a b =>
    cases q with
    | arrays => cases hpq
    | maps b' c =>
      cases hpq
      exact ⟨.maps a c, rfl, rfl, fun key => rel_comp (hp key) (hq key) htrans⟩

end

/-- Contents have the same shape at all depths, so being related at every depth goes through to the parts. -/
theorem Related.all {A : Nat → Value → Value → Prop} (hp : ∀ n, p.Related h (A n)) :
    p.Related h fun x y => ∀ n, A n x y := by
  cases p with
  | arrays a b =>
    simp only [Related, List.forall₂_iff_get] at hp ⊢
    exact ⟨(hp 0).1, fun i hi hi' n => (hp n).2 i hi hi'⟩
  | maps a b =>
    refine fun key => rel_imp (hp 0 key) fun x y hx hy _ n => ?_
    have hxy := hp n key
    rw [hx, hy] at hxy
    cases hxy with
    | some hxy => exact hxy

end ContainerPair

/-! ### Matching values -/

theorem Value.SameAtom.symm (hvw : v.SameAtom h w) : w.SameAtom h v := by
  cases hvw with
  | float hxy =>
    rw [Float.beq_iff_ne_nan_and_eq] at hxy
    exact .float (Float.beq_iff_ne_nan_and_eq.2 (by grind))
  | bytes hab => exact .bytes hab.symm
  | native hname => exact .native hname.symm
  | function hid => exact .function hid.symm
  | _ => constructor

theorem Value.SameAtom.trans (huv : u.SameAtom h v) (hvw : v.SameAtom h w) : u.SameAtom h w := by
  cases huv with
  | float hxy =>
    cases hvw with
    | float hyz =>
      rw [Float.beq_iff_ne_nan_and_eq] at hxy hyz
      exact .float (Float.beq_iff_ne_nan_and_eq.2 (by grind))
  | bytes hab =>
    cases hvw with
    | bytes hbc => exact .bytes (hab.trans hbc)
  | native hname =>
    cases hvw with
    | native hname' => exact .native (hname.trans hname')
  | function hid =>
    cases hvw with
    | function hid' => exact .function (hid.trans hid')
  | _ => exact hvw

theorem Value.SameAtom.container?_eq_none (hvw : v.SameAtom h w) : v.container? = none ∧ w.container? = none := by
  cases hvw <;> exact ⟨rfl, rfl⟩

namespace Value.Matches

theorem mono (hvw : v.Matches h R w) (himp : ∀ x y, R x y → S x y) : v.Matches h S w := by
  cases hvw with
  | atom hvw => exact .atom hvw
  | error hvw => exact .error (himp _ _ hvw)
  | identical hv => exact .identical hv
  | contents hv hw hp => exact .contents hv hw (hp.mono himp)

theorem symm (hvw : v.Matches h R w) (hsymm : ∀ x y, R x y → R y x) : w.Matches h R v := by
  cases hvw with
  | atom hvw => exact .atom hvw.symm
  | error hvw => exact .error (hsymm _ _ hvw)
  | identical hv => exact .identical hv
  | @contents _ _ p hv hw hp =>
    exact .contents (by rwa [p.left_swap]) (by rwa [p.right_swap]) (hp.flip.mono fun x y => hsymm y x)

theorem trans (huv : u.Matches h R v) (hvw : v.Matches h R w) (htrans : ∀ x y z, R x y → R y z → R x z) :
    u.Matches h R w := by
  cases huv with
  | atom huv =>
    cases hvw with
    | atom hvw => exact .atom (huv.trans hvw)
    | error => cases huv
    | identical => exact .atom huv
    | contents hv => simp [huv.container?_eq_none.2] at hv
  | error huv =>
    cases hvw with
    | atom hvw => cases hvw
    | error hvw => exact .error (htrans _ _ _ huv hvw)
    | identical hv | contents hv => cases hv
  | identical => exact hvw
  | @contents _ _ p hu hv hp =>
    cases hvw with
    | atom hvw => simp [hvw.container?_eq_none.1] at hv
    | error => cases hv
    | identical => exact .contents hu hv hp
    | @contents _ _ q hv' hw hq =>
      obtain ⟨r, hleft, hright, hr⟩ := hp.trans hq (Option.some.inj (hv.symm.trans hv')) htrans
      exact .contents (hleft ▸ hu) (hright ▸ hw) hr

end Value.Matches

/-! ### Finite approximations -/

/-- Values that agree to some depth. -/
def Value.Alike (h : Heap) : Nat → Value → Value → Prop
  | 0, _, _ => True
  | n + 1, v, w => v.Matches h (Alike h n) w

/-- Containers whose contents agree to some depth, counted from the containers. -/
def ContainerPair.Alike (h : Heap) : Nat → ContainerPair → Prop
  | 0, _ => True
  | n + 1, p => p.Related h (Value.Alike h n)

namespace Value.Alike

theorem of_succ (hvw : Alike h (n + 1) v w) : Alike h n v w := by
  induction n generalizing v w with
  | zero => exact trivial
  | succ n ih => exact Matches.mono hvw fun x y => ih

theorem symm (hvw : Alike h n v w) : Alike h n w v := by
  induction n generalizing v w with
  | zero => exact trivial
  | succ n ih => exact Matches.symm hvw fun x y => ih

theorem trans (huv : Alike h n u v) (hvw : Alike h n v w) : Alike h n u w := by
  induction n generalizing u v w with
  | zero => exact trivial
  | succ n ih => exact Matches.trans huv hvw fun x y z => ih

theorem of_bisimulation (hR : h.IsBisimulation R) (hvw : R v w) (n : Nat) : Alike h n v w := by
  induction n generalizing v w with
  | zero => exact trivial
  | succ n ih => exact (hR v w hvw).mono fun x y => ih

end Value.Alike

theorem ContainerPair.Alike.of_succ (hp : p.Alike h (n + 1)) : p.Alike h n := by
  cases n with
  | zero => exact trivial
  | succ n => exact Related.mono hp fun x y => Value.Alike.of_succ

/-- Being alike to every depth is a bisimulation: which containers two values are does not depend on the depth. -/
theorem Heap.isBisimulation_alike (h : Heap) : h.IsBisimulation fun v w => ∀ n, v.Alike h n w := by
  intro v w hvw
  by_cases hidentical : v = w ∧ ∃ c, v.container? = some c
  · obtain ⟨rfl, c, hc⟩ := hidentical
    exact .identical hc
  · cases hvw 1 with
    | atom hatom => exact .atom hatom
    | error =>
      refine .error fun n => ?_
      cases hvw (n + 1) with
      | atom hatom => cases hatom
      | error hn => exact hn
      | identical hv | contents hv => cases hv
    | identical hv => exact absurd ⟨rfl, _, hv⟩ hidentical
    | @contents _ _ p hv hw =>
      refine .contents hv hw (ContainerPair.Related.all fun n => ?_)
      cases hvw (n + 1) with
      | atom hatom => simp [hatom.container?_eq_none.1] at hv
      | error => cases hv
      | identical => exact absurd ⟨rfl, _, hv⟩ hidentical
      | @contents _ _ q hv' hw' hq =>
        have hpq : p = q := by cases p <;> cases q <;> simp_all [ContainerPair.left, ContainerPair.right]
        exact hpq ▸ hq

end Relations

/-! ### What a comparison does -/

namespace Equality

variable {fuel : Nat} {path : List ContainerPair}

/-- Compares the contents of two containers, unless they are being compared already. -/
def samePair (h : Heap) (fuel : Nat) (path : List ContainerPair) : ContainerPair → Bool
  | .arrays a b => sameArrays h path a b (sameIn h fuel)
  | .maps a b => sameMaps h path a b (sameIn h fuel)

/-- The pair that a comparison of two containers looks up and enters. A frozen one goes last. -/
def pair? : Value → Value → Option ContainerPair
  | .array a, .array b | .frozenArray a, .frozenArray b | .array a, .frozenArray b | .frozenArray b, .array a =>
    some (.arrays a b)
  | .map a, .map b | .frozenMap a, .frozenMap b | .map a, .frozenMap b | .frozenMap b, .map a => some (.maps a b)
  | _, _ => none

theorem container?_of_pair? (hq : pair? v w = some q) :
    (v.container? = some q.left ∧ w.container? = some q.right) ∨
      (v.container? = some q.right ∧ w.container? = some q.left) := by
  unfold pair? at hq
  split at hq <;> cases hq <;> simp [Value.container?, ContainerPair.left, ContainerPair.right]

theorem pair?_of_container? (hv : v.container? = some p.left) (hw : w.container? = some p.right) :
    pair? v w = some p ∨ pair? v w = some p.swap := by
  cases p <;> cases v <;> simp [Value.container?, ContainerPair.left] at hv <;>
    cases w <;> simp [Value.container?, ContainerPair.right] at hw <;> simp [pair?, ContainerPair.swap, hv, hw]

theorem sameIn_error (v w : Value) : sameIn h fuel path (.error v) (.error w) = sameIn h fuel path v w := by
  rw [sameIn, sameIn]
  simp [Value.unwrap]

theorem sameIn_pair (hq : pair? v w = some q) :
    sameIn h (fuel + 1) path v w = true ↔ v = w ∨ samePair h fuel path q = true := by
  unfold pair? at hq
  split at hq <;> cases hq <;> simp [sameIn, Value.unwrap, samePair]

theorem sameAtoms_iff : sameAtoms h v w = true ↔ v.SameAtom h w := by
  refine ⟨fun hsame => ?_, fun hatom => by cases hatom <;> simp [sameAtoms, *]⟩
  cases v <;> cases w <;> simp [sameAtoms] at hsame <;>
    first
    | (subst hsame; constructor)
    | (constructor; assumption)
    | (obtain ⟨rfl, rfl⟩ := hsame; constructor)

/-- Values without parts, and values of different kinds. -/
theorem sameIn_atom (hq : pair? v w = none) (herrors : ∀ x y, v = .error x → w ≠ .error y) :
    sameIn h fuel path v w = sameAtoms h v w := by
  cases fuel <;> cases v <;> cases w <;>
    first
    | (exfalso; exact herrors _ _ rfl rfl)
    | (injection hq; done)
    | rfl
    | simp [sameIn, Value.unwrap, sameAtoms]

/-- Dictionaries of one size that agree on the keys of one of them have the same keys. -/
theorem sameEntries_iff {same : Value → Value → Bool} {d e : Dict Value} :
    (d.size == e.size && sameEntries same d.entries e) = true ↔
      ∀ key, Option.Rel (same · · = true) (d.find? key) (e.find? key) := by
  simp only [Bool.and_eq_true, beq_iff_eq, sameEntries, List.all_eq_true, Option.any_eq_true]
  constructor
  · rintro ⟨hsize, hall⟩ key
    have hsub : d.keys ⊆ e.keys := by
      intro k hk
      obtain ⟨x, hx⟩ := Dict.mem_keys_iff.1 hk
      obtain ⟨y, hy, -⟩ := hall _ (Dict.find?_eq_some_iff.1 hx)
      exact Dict.mem_keys_of_find? hy
    have hperm : d.keys.Perm e.keys := (List.Nodup.subperm d.nodup hsub).perm_of_length_le (by
      simp only [Dict.keys, List.length_map]
      exact hsize.ge)
    cases hx : d.find? key with
    | some x =>
      obtain ⟨y, hy, hxy⟩ := hall _ (Dict.find?_eq_some_iff.1 hx)
      rw [show e.find? key = some y from hy]
      exact .some hxy
    | none =>
      cases hy : e.find? key with
      | none => exact .none
      | some y =>
        obtain ⟨x, hx'⟩ := Dict.mem_keys_iff.1 (hperm.mem_iff.2 (Dict.mem_keys_of_find? hy))
        simp [hx] at hx'
  · intro hall
    have hkeys : ∀ key, key ∈ d.keys ↔ key ∈ e.keys := by
      intro key
      have hkey := hall key
      rw [Dict.mem_keys_iff, Dict.mem_keys_iff]
      generalize d.find? key = x at hkey ⊢
      generalize e.find? key = y at hkey ⊢
      cases hkey <;> simp
    have hperm : d.keys.Perm e.keys := (List.perm_ext_iff_of_nodup d.nodup e.nodup).2 hkeys
    refine ⟨by simpa [Dict.keys, Dict.size] using hperm.length_eq, fun x hx => ?_⟩
    have hkey := hall x.1
    rw [Dict.find?_eq_some_iff.2 hx] at hkey
    generalize e.find? x.1 = y at hkey
    cases hkey with
    | some hxy => exact ⟨_, rfl, hxy⟩

theorem samePair_iff : samePair h fuel path q = true ↔
    q ∈ path ∨ q.Related h (sameIn h fuel (q :: path) · · = true) := by
  by_cases hmem : q ∈ path
  · cases q <;> simp [samePair, sameArrays, sameMaps, hmem]
  · cases q with
    | arrays a b =>
      simp only [samePair, sameArrays, hmem, if_false, false_or, ContainerPair.Related, Bool.and_eq_true,
        sameItems_iff, beq_iff_eq]
      exact ⟨And.right, fun hall => ⟨hall.length_eq, hall⟩⟩
    | maps a b => simp only [samePair, sameMaps, hmem, if_false, false_or, ContainerPair.Related, sameEntries_iff]

/-- What a successful comparison has found, given what it found of entered pairs and of the contents of errors. -/
theorem matches_of_sameIn (hsame : sameIn h fuel path v w = true) (hsymm : ∀ x y, R x y → R y x)
    (herror : ∀ x y, sameIn h fuel path x y = true → R x y)
    (hpair : ∀ fuel q, samePair h fuel path q = true → q.Related h R) : v.Matches h R w := by
  cases hq : pair? v w with
  | some q =>
    obtain ⟨c, hc⟩ : ∃ c, v.container? = some c :=
      (container?_of_pair? hq).elim (fun hvw => ⟨_, hvw.1⟩) fun hvw => ⟨_, hvw.1⟩
    cases fuel with
    | zero =>
      unfold pair? at hq
      split at hq <;> cases hq <;> simp [sameIn, Value.unwrap, sameAtoms] at hsame
    | succ fuel =>
      rcases (sameIn_pair hq).1 hsame with rfl | hsame
      · exact .identical hc
      · have hrelated := hpair fuel q hsame
        rcases container?_of_pair? hq with ⟨hv, hw⟩ | ⟨hv, hw⟩
        · exact .contents hv hw hrelated
        · exact (Value.Matches.contents hw hv hrelated).symm hsymm
  | none =>
    by_cases herrors : ∃ x y, v = .error x ∧ w = .error y
    · obtain ⟨x, y, rfl, rfl⟩ := herrors
      exact .error (herror x y (by rwa [sameIn_error] at hsame))
    · rw [sameIn_atom hq fun x y hv hw => herrors ⟨x, y, hv, hw⟩] at hsame
      exact .atom (sameAtoms_iff.1 hsame)

/-- The converse, for a comparison that may enter one more pair. -/
theorem sameIn_of_matches (hvw : v.Matches h R w) (hsymm : ∀ x y, R x y → R y x)
    (herror : ∀ x y, v = .error x → w = .error y → R x y → sameIn h (fuel + 1) path x y = true)
    (hpair : ∀ q : ContainerPair, q.Related h R → samePair h fuel path q = true) :
    sameIn h (fuel + 1) path v w = true := by
  cases hvw with
  | atom hatom =>
    have hq : pair? v w = none := by cases hatom <;> rfl
    rw [sameIn_atom hq fun x y hv hw => by subst hv; cases hatom]
    exact sameAtoms_iff.2 hatom
  | error hxy => exact (sameIn_error ..).trans (herror _ _ rfl rfl hxy)
  | identical hv =>
    obtain ⟨q, hq⟩ : ∃ q, pair? v v = some q := by cases v <;> cases hv <;> exact ⟨_, rfl⟩
    exact (sameIn_pair hq).2 (.inl rfl)
  | contents hv hw hp =>
    rcases pair?_of_container? hv hw with hq | hq
    · exact (sameIn_pair hq).2 (.inr (hpair _ hp))
    · exact (sameIn_pair hq).2 (.inr (hpair _ (hp.flip.mono fun x y => hsymm y x)))

/-- A comparison under way keeps its word to any depth to which the pairs under comparison are alike. -/
theorem alike_of_same (n : Nat) :
    (∀ fuel path q, (∀ p ∈ path, p.Alike h n) → samePair h fuel path q = true → q.Alike h n) ∧
      ∀ fuel path v w, (∀ p ∈ path, p.Alike h n) → sameIn h fuel path v w = true → v.Alike h n w := by
  induction n with
  | zero => exact ⟨fun _ _ _ _ _ => trivial, fun _ _ _ _ _ _ => trivial⟩
  | succ n ih =>
    have hpair : ∀ fuel path q, (∀ p ∈ path, p.Alike h (n + 1)) → samePair h fuel path q = true →
        q.Alike h (n + 1) := by
      intro fuel path q hpath hsame
      rcases samePair_iff.1 hsame with hmem | hrelated
      · exact hpath q hmem
      · -- the pair that is entered is alike to the depth before, and so are its contents under it
        have hpath' : ∀ p ∈ path, p.Alike h n := fun p hp => (hpath p hp).of_succ
        have hentered := List.forall_mem_cons.2 ⟨ih.1 fuel path q hpath' hsame, hpath'⟩
        exact hrelated.mono fun x y => ih.2 fuel (q :: path) x y hentered
    refine ⟨hpair, fun fuel path v w hpath hsame => ?_⟩
    exact matches_of_sameIn hsame (fun x y => Value.Alike.symm)
      (fun x y => ih.2 fuel path x y fun p hp => (hpath p hp).of_succ) fun fuel q => hpair fuel path q hpath

/-- A comparison that has fuel for all pairs of the heap recognises values alike to every depth. -/
theorem sameIn_of_alike (hpath : IsPath h path) (hfuel : h.pairs ≤ fuel + path.length)
    (hvw : ∀ n, v.Alike h n w) : sameIn h fuel path v w = true := by
  induction fuel generalizing path v w with
  | zero =>
    have hlength := length_le_of_nodup hpath.nodup hpath.mem
    rw [Heap.pairs_eq] at hfuel
    omega
  | succ fuel ih =>
    have hpair : ∀ q : ContainerPair, (q.Related h fun x y => ∀ n, x.Alike h n y) →
        samePair h fuel path q = true := by
      intro q hq
      by_cases hmem : q ∈ path
      · exact samePair_iff.2 (.inl hmem)
      · exact samePair_iff.2 (.inr (hq.imp_of_mem fun hin x y =>
          ih (hpath.cons hmem hin) (by rw [List.length_cons]; omega)))
    induction v generalizing w with
    | error v ihv =>
      refine sameIn_of_matches (h.isBisimulation_alike _ _ hvw) (fun x y hxy n => (hxy n).symm) ?_ hpair
      rintro x y hx - hxy
      cases hx
      exact ihv hxy
    | _ =>
      refine sameIn_of_matches (h.isBisimulation_alike _ _ hvw) (fun x y hxy n => (hxy n).symm) ?_ hpair
      rintro x y hx
      cases hx

theorem sameIn_iff_alike (hfuel : h.pairs ≤ fuel) : sameIn h fuel [] v w = true ↔ ∀ n, v.Alike h n w :=
  ⟨fun hsame n => (alike_of_same n).2 fuel [] v w (by simp) hsame, sameIn_of_alike ⟨.nil, by simp⟩ hfuel⟩

/-- With enough fuel a comparison does not depend on it. -/
theorem sameIn_of_pairs_le (hfuel : h.pairs ≤ fuel) (v w : Value) :
    sameIn h fuel [] v w = sameIn h h.pairs [] v w := by
  rw [Bool.eq_iff_iff, sameIn_iff_alike hfuel, sameIn_iff_alike (Nat.le_refl _)]

end Equality

/-! ### Bisimilarity -/

section Bisimilarity

theorem Value.equal_iff_alike : v.equal h w = true ↔ ∀ n, v.Alike h n w :=
  Equality.sameIn_iff_alike (Nat.le_refl _)

/-- No NaN can be reached from a value. -/
def Heap.FreeOfNaN (h : Heap) (v : Value) : Prop :=
  ∀ x : Float, Relation.ReflTransGen h.Contains v (.float x) → x.isNaN = false

theorem Heap.FreeOfNaN.part (hv : h.FreeOfNaN v) (hw : h.Contains v w) : h.FreeOfNaN w :=
  fun x hx => hv x (.head hw hx)

/-- A value from which no NaN can be reached is related to itself. -/
theorem Heap.isBisimulation_eq (h : Heap) : h.IsBisimulation fun v w => v = w ∧ h.FreeOfNaN v := by
  rintro v w ⟨hvw, hv⟩
  subst hvw
  cases v with
  | array | frozenArray | map | frozenMap => exact .identical rfl
  | error v => exact .error ⟨rfl, hv.part (.error v)⟩
  | float x =>
    have hx : x ≠ Float.nan := by simpa [Float.isNaN_eq_decide_eq_nan] using hv x .refl
    exact .atom (.float (Float.beq_self_iff.2 hx))
  | bytes => exact .atom (.bytes rfl)
  | native => exact .atom (.native rfl)
  | function => exact .atom (.function rfl)
  | _ => exact .atom (by constructor)

/-- Equality of values is the largest relation that looks into what it relates, and the fuel never shows. -/
theorem Value.equal_is_bisimilarity (h : Heap) :
    (∀ (fuel : Nat) (v w : Value), h.pairs ≤ fuel → Equality.sameIn h fuel [] v w = v.equal h w) ∧
      (∀ v w : Value, v.equal h w = true ↔ v.Matches h (fun x y => x.equal h y = true) w) ∧
      (∀ R, h.IsBisimulation R → ∀ v w : Value, R v w → v.equal h w = true) ∧
      (∀ v w : Value, v.equal h w = w.equal h v) ∧
      (∀ u v w : Value, u.equal h v = true → v.equal h w = true → u.equal h w = true) ∧
      ∀ v : Value, h.FreeOfNaN v → v.equal h v = true := by
  have hlargest : ∀ R, h.IsBisimulation R → ∀ v w : Value, R v w → v.equal h w = true :=
    fun R hR v w hvw => equal_iff_alike.2 (Alike.of_bisimulation hR hvw)
  have hbisimulation : h.IsBisimulation fun x y => x.equal h y = true := by
    simp only [equal_iff_alike]
    exact h.isBisimulation_alike
  refine ⟨fun fuel v w hfuel => Equality.sameIn_of_pairs_le hfuel v w, fun v w => ⟨hbisimulation v w, fun hvw => ?_⟩,
    hlargest, fun v w => ?_, fun u v w huv hvw => ?_, fun v hv => hlargest _ h.isBisimulation_eq v v ⟨rfl, hv⟩⟩
  · exact hlargest _ (fun x y hxy => hxy.mono hbisimulation) v w hvw
  · rw [Bool.eq_iff_iff, equal_iff_alike, equal_iff_alike]
    exact ⟨fun hvw n => (hvw n).symm, fun hwv n => (hwv n).symm⟩
  · rw [equal_iff_alike] at *
    exact fun n => (huv n).trans (hvw n)

/-- Two arrays that contain each other, the second one frozen, are equal to each other and to themselves. -/
theorem Value.equal_of_mutual_arrays : let h : Heap := { arrays := #[#[.frozenArray 1], #[.array 0]] }
    h.pairs ≤ 6 ∧ Equality.sameIn h 6 [] (.array 0) (.frozenArray 1) = true ∧
      (∀ v w : Value, v = .array 0 ∧ w = .frozenArray 1 ∨ v = .frozenArray 1 ∧ w = .array 0 → v.equal h w = true) ∧
      (Value.array 0).equal h (.array 0) = true := by
  intro h
  obtain ⟨hfuel, -, hlargest, hsymm, htrans, -⟩ := Value.equal_is_bisimilarity h
  have hR : ∀ v w : Value, v = .array 0 ∧ w = .frozenArray 1 ∨ v = .frozenArray 1 ∧ w = .array 0 →
      v.equal h w = true := by
    refine hlargest _ ?_
    rintro v w (⟨rfl, rfl⟩ | ⟨rfl, rfl⟩)
    · exact .contents (p := .arrays 0 1) rfl rfl (.cons (.inr ⟨rfl, rfl⟩) .nil)
    · exact .contents (p := .arrays 1 0) rfl rfl (.cons (.inl ⟨rfl, rfl⟩) .nil)
  have hvw := hR _ _ (.inl ⟨rfl, rfl⟩)
  have hpairs : h.pairs ≤ 6 := by decide
  exact ⟨hpairs, (hfuel 6 _ _ hpairs).trans hvw, hR, htrans _ _ _ hvw ((hsymm _ _).trans hvw)⟩

end Bisimilarity

end ScriptEngine
