import ScriptEngine.Proofs.Code.Renumber
import ScriptEngine.Proofs.Compiler.Constants
/-!
# Merging equal constants

The constants of a program are taken into a pool one after the other, and each gets a number. What holds of
the pool after each of them is said once, for any constants (`Dedup.Pooled`). A function of a compiled program
refers only to constants before it, so its code can be renumbered when it is taken in. Main statement: under the
new number of a constant stands the same constant, or one with the same key (`Program.dedup_merges`).
-/

namespace ScriptEngine

variable {key : ConstantKey} {i j k n total : Nat} {α : Type}

/-! ### Functions that can be renumbered -/

/-- A function whose code is a layout that refers to the first `n` constants only. -/
def Function.LaidOut (f : Function) (n : Nat) : Prop :=
  ∃ c : Code, f.code = (bytesOf (c.lines 0 0 0)).toArray ∧ c.All (Opcode.Uses n)

/-- A constant that is laid out if it is a function. -/
def Value.LaidOut (n : Nat) : Value → Prop
  | .function f => f.LaidOut n
  | _ => True

/-- A function is another one with new numbers for the first `n` constants in its code. -/
structure Function.Renumbered (n : Nat) (ρ : Nat → Nat) (f g : Function) : Prop where
  rest : g = { f with code := g.code }
  code : ∀ c : Code, f.code = (bytesOf (c.lines 0 0 0)).toArray → c.All (Opcode.Uses n) →
    g.code = (bytesOf ((c.renumber ρ).lines 0 0 0)).toArray

/-- A constant is another one, with new numbers of constants if it is a function. -/
def Value.Renumbered (n : Nat) (ρ : Nat → Nat) : Value → Value → Prop
  | .function f, w => ∃ g, w = .function g ∧ f.Renumbered n ρ g
  | v, w => w = v

namespace Dedup

variable {r : Renumbering} {p p' : Pool} {v w : Value} {h : Heap} {vs : List Value}

/-- A renumbering with a number for one more constant. -/
def Renumbering.push (r : Renumbering) (n : Nat) : Renumbering := { r with assigned := r.assigned.push n }

theorem Renumbering.number_push_of_lt (hi : i < r.assigned.size) (n : Nat) : (r.push n).number i = r.number i := by
  simp [Renumbering.number, Renumbering.push, Array.getElem?_push, Nat.ne_of_lt hi]

/-- An instruction that has its new number keeps it. -/
theorem Renumbering.instruction_push (hr : r.assigned.size < r.total) {i j : Instruction}
    (hi : r.instruction i = some j) (n : Nat) : (r.push n).instruction i = some j := by
  rw [Renumbering.instruction] at hi ⊢
  split at hi
  · next hop =>
    rw [if_pos hop]
    cases hnew : r.assigned[i.first]? with
    | some new =>
      have hi' := (Array.getElem?_eq_some_iff.1 hnew).1
      simpa [Renumbering.push, Array.getElem?_push, Nat.ne_of_lt hi', hnew] using hi
    | none =>
      rw [hnew] at hi
      dsimp only at hi
      split at hi
      · cases hi
      · next hge =>
        have hne : i.first ≠ r.assigned.size := by omega
        simpa [Renumbering.push, Array.getElem?_push, hne, hnew, hge] using hi
  · next hop => rwa [if_neg hop]

theorem mapM_of_mapM {β : Type} {g g' : α → Option β} {xs : List α} {ys : List β} (h : xs.mapM g = some ys)
    (hg : ∀ x y, g x = some y → g' x = some y) : xs.mapM g' = some ys := by
  induction xs generalizing ys with
  | nil => exact h
  | cons x rest ih =>
    rw [List.mapM_cons] at h ⊢
    obtain ⟨y, hy, h⟩ := Option.bind_eq_some_iff.1 h
    obtain ⟨ys', hrest, heq⟩ := Option.bind_eq_some_iff.1 h
    rw [hg x y hy, ih hrest]
    exact heq

/-- A code that has its new numbers keeps them. -/
theorem Renumbering.code_push (hr : r.assigned.size < r.total) {code : Array UInt8} {bytes : List UInt8}
    (hcode : r.code code = some bytes) (n : Nat) : (r.push n).code code = some bytes := by
  rw [Renumbering.code] at hcode ⊢
  split at hcode
  · cases hcode
  · next hfault =>
    rw [if_neg hfault]
    obtain ⟨is, his, hbytes⟩ := Option.map_eq_some_iff.1 hcode
    rw [mapM_of_mapM his fun i j hi => instruction_push hr hi n, Option.map_some, hbytes]

/-- A constant with the new numbers that are there. -/
def Forms (r : Renumbering) : Value → Value → Prop
  | .function f, w => ∃ bytes, r.code f.code = some bytes ∧ w = .function { f with code := bytes.toArray }
  | v, w => w = v

theorem Forms.eq (hw : Forms r v w) (hv : ∀ f, v ≠ .function f) : w = v := by
  cases v with
  | function f => exact absurd rfl (hv f)
  | _ => exact hw

theorem Forms.push (hw : Forms r v w) (hr : r.assigned.size < r.total) (n : Nat) : Forms (r.push n) v w := by
  cases v with
  | function f =>
    obtain ⟨bytes, hbytes, rfl⟩ := hw
    exact ⟨bytes, Renumbering.code_push hr hbytes n, rfl⟩
  | _ => exact hw

theorem Forms.renumbered (hw : Forms r v w) : v.Renumbered r.assigned.size r.number w := by
  cases v with
  | function f =>
    obtain ⟨bytes, hbytes, rfl⟩ := hw
    refine ⟨_, rfl, rfl, fun c hcode huses => ?_⟩
    rw [hcode, Renumbering.code_bytesOf huses, Option.some.injEq] at hbytes
    rw [hbytes]
  | _ => exact hw

/-! ### The pool -/

/-- The key of a constant with its final code, if it can be merged with others. -/
def keyOf (h : Heap) : Value → Option ConstantKey
  | .int v => some (.int v)
  | .float v => some (.float v.toBits)
  | .char v => some (.char v)
  | .string s => some (.text s)
  | .frozenMap a => ((Value.frozenMap a).moduleName? h).map .module
  | .function f => some (.function f.code.toList f.locals f.parameters f.variadic f.positions)
  | _ => none

/-- Two constants are the same, or have the same key. -/
def Alike (h : Heap) (v w : Value) : Prop := w = v ∨ ∃ key, keyOf h v = some key ∧ keyOf h w = some key

theorem keyOf_function (f : Function) : keyOf h (.function f) ≠ none := Option.some_ne_none _

/-- What taking in a constant does: it is found under its key, added under its key or without one, or added as a
function to be renumbered at the end. -/
inductive Pool.Takes (h : Heap) (r : Renumbering) (p : Pool) (v : Value) : Nat → Pool → Prop where
  | known {w : Value} {key : ConstantKey} {k : Nat} (hform : Forms r v w) (hkey : keyOf h w = some key)
      (hfind : p.keys.find? (·.1 = key) = some (key, k)) : Takes h r p v k p
  | keyed {w : Value} {key : ConstantKey} (hform : Forms r v w) (hkey : keyOf h w = some key)
      (hfind : p.keys.find? (·.1 = key) = none) : Takes h r p v p.constants.size
        { p with constants := p.constants.push w, keys := (key, p.constants.size) :: p.keys }
  | plain (hform : Forms r v v) (hkey : keyOf h v = none) : Takes h r p v p.constants.size (p.add v).2
  | deferred {f : Function} (hv : v = .function f) (hcode : r.code f.code = none) :
      Takes h r p v p.constants.size (p.defer v).2

theorem Pool.takes_merge (hform : Forms r v w) (hkey : keyOf h w = some key) :
    p.Takes h r v (p.merge key w).1 (p.merge key w).2 := by
  rw [merge]
  cases hfind : p.keys.find? (·.1 = key) with
  | some e =>
    obtain ⟨key', k⟩ := e
    obtain rfl : key' = key := by simpa using List.find?_some hfind
    exact .known hform hkey hfind
  | none => exact .keyed hform hkey hfind

theorem Pool.takes_take (h : Heap) (r : Renumbering) (p : Pool) (v : Value) :
    p.Takes h r v (p.take h r v).1 (p.take h r v).2 := by
  cases v with
  | int x | float x | char x | string x => exact takes_merge rfl rfl
  | frozenMap a =>
    rw [take]
    cases hname : (Value.frozenMap a).moduleName? h with
    | some name => exact takes_merge rfl (by rw [keyOf, hname]; rfl)
    | none => exact .plain rfl (by rw [keyOf, hname]; rfl)
  | function f =>
    rw [take]
    cases hcode : r.code f.code with
    | some bytes => exact takes_merge ⟨bytes, hcode, rfl⟩ rfl
    | none => exact .deferred rfl hcode
  | _ => exact .plain rfl rfl

/-- The first `n` constants have the numbers below some size, each one no larger than it was. -/
structure Numbered (r : Renumbering) (n size : Nat) : Prop where
  assigned : r.assigned.size = n
  fewer : size ≤ n
  small : ∀ i < n, r.number i ≤ i
  below : ∀ i < n, r.number i < size

namespace Numbered

variable {size : Nat} (hr : Numbered r n size)

include hr

theorem number_old (k : Nat) (hi : i < n) : (r.push k).number i = r.number i :=
  Renumbering.number_push_of_lt (hr.assigned ▸ hi) k

theorem number_new (k : Nat) : (r.push k).number n = k := by
  obtain rfl := hr.assigned
  simp [Renumbering.number, Renumbering.push]

/-- One more constant gets a number that is there or the next one. -/
theorem push {size' : Nat} (hsize : size ≤ size') (hsize' : size' ≤ n + 1) (hk : k ≤ size) (hk' : k < size') :
    Numbered (r.push k) (n + 1) size' where
  assigned := hr.assigned ▸ Array.size_push _
  fewer := hsize'
  small i hi := by
    rcases Nat.lt_succ_iff_lt_or_eq.1 hi with hi | rfl
    · exact hr.number_old k hi ▸ hr.small i hi
    · rw [hr.number_new]
      exact Nat.le_trans hk hr.fewer
  below i hi := by
    rcases Nat.lt_succ_iff_lt_or_eq.1 hi with hi | rfl
    · exact hr.number_old k hi ▸ Nat.lt_of_lt_of_le (hr.below i hi) hsize
    · rw [hr.number_new]
      exact hk'

end Numbered

/-- What stands under a number of a pool is a constant in its final form, or one as it was if it is a function to
be renumbered at the end. -/
def Pool.Holds (r : Renumbering) (p : Pool) (k : Nat) (v w : Value) : Prop :=
  k ∉ p.deferred ∧ Forms r v w ∨ k ∈ p.deferred ∧ w = v ∧ ∃ f, v = .function f

/-- What stands under the number of a constant is it, or something like it in its final form. -/
def Pool.Shows (h : Heap) (r : Renumbering) (p : Pool) (k : Nat) (v : Value) : Prop :=
  ∃ w u, p.constants[k]? = some u ∧ p.Holds r k v w ∧ (u = w ∨ k ∉ p.deferred ∧ Alike h w u)

/-- What holds after the constants `vs`, out of a total, were taken into a pool. -/
structure Pooled (h : Heap) (total : Nat) (vs : List Value) (r : Renumbering) (p : Pool) : Prop where
  total : r.total = total
  numbered : Numbered r vs.length p.constants.size
  late : ∀ k ∈ p.deferred, k < p.constants.size
  once : p.deferred.Nodup
  shows : ∀ (i : Nat) v, vs[i]? = some v → p.Shows h r (r.number i) v
  /-- What stands in the pool is the first constant with its number. -/
  origin : ∀ (k : Nat) w, p.constants[k]? = some w → ∃ (i : Nat) (v : Value), vs[i]? = some v ∧ r.number i = k ∧
    p.Holds r k v w ∧ ∀ j < i, r.number j < k
  found : ∀ e ∈ p.keys, e.2 ∉ p.deferred ∧ ∃ w, p.constants[e.2]? = some w ∧ keyOf h w = some e.1
  indexed : ∀ (k : Nat) w key, p.constants[k]? = some w → k ∉ p.deferred → keyOf h w = some key →
    p.keys.find? (·.1 = key) = some (key, k)
  /-- A constant without a key shares its number with no other one. -/
  apart : ∀ (i : Nat) v, vs[i]? = some v → keyOf h v = none → ∀ j < vs.length, r.number j = r.number i → j = i

theorem getElem?_concat_cases {xs : List α} {x y : α} (hy : (xs ++ [x])[i]? = some y) :
    xs[i]? = some y ∨ i = xs.length ∧ y = x := by
  rcases Nat.lt_trichotomy i xs.length with hi | rfl | hi
  · rw [List.getElem?_append_left hi] at hy
    exact .inl hy
  · rw [List.getElem?_concat_length, Option.some.injEq] at hy
    exact .inr ⟨rfl, hy.symm⟩
  · rw [List.getElem?_eq_none (by rw [List.length_append]; exact hi)] at hy
    cases hy

section Step

variable (hp : Pooled h total vs r p) (hlt : vs.length < total)

include hp

theorem Pooled.number_old (k : Nat) (hv : vs[i]? = some v) : (r.push k).number i = r.number i :=
  hp.numbered.number_old k (List.getElem?_eq_some_iff.1 hv).1

theorem Pooled.lt_of_mem_keys {e : ConstantKey × Nat} (he : e ∈ p.keys) : e.2 < p.constants.size := by
  obtain ⟨-, w, hw, -⟩ := hp.found e he
  exact (Array.getElem?_eq_some_iff.1 hw).1

/-- A constant without a key stands in the pool as it is, and no key leads to it. -/
theorem Pooled.unkeyed (hv : vs[i]? = some v) (hkey : keyOf h v = none) : ∀ e ∈ p.keys, e.2 ≠ r.number i := by
  rintro e he hnumber
  obtain ⟨hsettled, u, hu, hkeyed⟩ := hp.found e he
  obtain ⟨w, u', hu', hholds, halike⟩ := hp.shows i v hv
  rw [hnumber] at hsettled hu
  cases hu.symm.trans hu'
  have hfunction : ∀ f, v ≠ .function f := by
    rintro f rfl
    exact keyOf_function f hkey
  obtain ⟨-, hform⟩ | ⟨hlate, -⟩ := hholds
  · obtain rfl := hform.eq hfunction
    rcases halike with rfl | ⟨-, rfl | ⟨key, hsame, -⟩⟩
    · cases hkeyed.symm.trans hkey
    · cases hkeyed.symm.trans hkey
    · cases hkey.symm.trans hsame
  · exact hsettled hlate

include hlt

theorem Pooled.room : r.assigned.size < r.total := by rwa [hp.total, hp.numbered.assigned]

theorem Pooled.holds_old (hdeferred : ∀ k < p.constants.size, k ∈ p'.deferred ↔ k ∈ p.deferred)
    (hk : k < p.constants.size) (hholds : p.Holds r k v w) : p'.Holds (r.push j) k v w := by
  rw [Pool.Holds, hdeferred k hk]
  exact hholds.imp_left fun hform => ⟨hform.1, hform.2.push (hp.room hlt) j⟩

/-- More numbers make no difference to what was taken in. -/
theorem Pooled.shows_old (hkept : KeptIn p.constants p'.constants)
    (hdeferred : ∀ k < p.constants.size, k ∈ p'.deferred ↔ k ∈ p.deferred) (hv : vs[i]? = some v) :
    p'.Shows h (r.push k) ((r.push k).number i) v := by
  have hbelow := hp.numbered.below i (List.getElem?_eq_some_iff.1 hv).1
  rw [hp.number_old k hv]
  obtain ⟨w, u, hu, hholds, halike⟩ := hp.shows i v hv
  refine ⟨w, u, hkept _ _ hu, hp.holds_old hlt hdeferred hbelow hholds, ?_⟩
  rwa [hdeferred _ hbelow]

theorem Pooled.origin_old (hdeferred : ∀ k < p.constants.size, k ∈ p'.deferred ↔ k ∈ p.deferred)
    (hw : p.constants[k]? = some w) : ∃ (i : Nat) (u : Value), (vs ++ [v])[i]? = some u ∧ (r.push j).number i = k ∧
      p'.Holds (r.push j) k u w ∧ ∀ l < i, (r.push j).number l < k := by
  obtain ⟨i, u, hu, hnumber, hholds, hfirst⟩ := hp.origin k w hw
  have hi := (List.getElem?_eq_some_iff.1 hu).1
  refine ⟨i, u, by rwa [List.getElem?_append_left hi], (hp.number_old j hu).trans hnumber,
    hp.holds_old hlt hdeferred (Array.getElem?_eq_some_iff.1 hw).1 hholds, fun l hl => ?_⟩
  rw [hp.numbered.number_old j (Nat.lt_trans hl hi)]
  exact hfirst l hl

/-- A constant that is taken in gets the number of one that is there. -/
theorem Pooled.reuse (hform : Forms r v w) (hkey : keyOf h w = some key)
    (hfind : p.keys.find? (·.1 = key) = some (key, k)) : Pooled h total (vs ++ [v]) (r.push k) p := by
  have hentry := List.mem_of_find?_eq_some hfind
  have hk := hp.lt_of_mem_keys hentry
  obtain ⟨hsettled, u, hu, hkeyed⟩ := hp.found _ hentry
  have hlength : (vs ++ [v]).length = vs.length + 1 := List.length_append
  refine ⟨hp.total, ?_, hp.late, hp.once, fun i x hx => ?_, fun k w hw => hp.origin_old hlt (fun _ _ => Iff.rfl) hw,
    hp.found, hp.indexed, fun i x hx hunkeyed j hj hsame => ?_⟩
  · rw [hlength]
    exact hp.numbered.push (Nat.le_refl _) (Nat.le_succ_of_le hp.numbered.fewer) (Nat.le_of_lt hk) hk
  · rcases getElem?_concat_cases hx with hx | ⟨rfl, rfl⟩
    · exact hp.shows_old hlt (KeptIn.refl _) (fun _ _ => Iff.rfl) hx
    · rw [hp.numbered.number_new]
      exact ⟨w, u, hu, .inl ⟨hsettled, hform.push (hp.room hlt) k⟩, .inr ⟨hsettled, .inr ⟨key, hkey, hkeyed⟩⟩⟩
  · rcases getElem?_concat_cases hx with hx | ⟨rfl, rfl⟩
    · rw [hp.number_old k hx] at hsame
      rcases Nat.lt_succ_iff_lt_or_eq.1 (hlength ▸ hj) with hj | rfl
      · exact hp.apart i x hx hunkeyed j hj (hp.numbered.number_old k hj ▸ hsame)
      · exact absurd (hp.numbered.number_new k ▸ hsame) (hp.unkeyed hx hunkeyed _ hentry)
    · have hfunction : ∀ f, x ≠ .function f := by
        rintro f rfl
        exact keyOf_function f hunkeyed
      rw [hform.eq hfunction, hunkeyed] at hkey
      cases hkey

/-- A constant that is taken in gets a number of its own. -/
theorem Pooled.fresh (hconstants : p'.constants = p.constants.push w)
    (hform : p'.deferred = p.deferred ∧ Forms r v w ∨
      p'.deferred = p.constants.size :: p.deferred ∧ w = v ∧ ∃ f, v = .function f)
    (hkeys : p'.keys = p.keys ∧ (p'.deferred = p.deferred → keyOf h w = none) ∨
      ∃ key, p'.keys = (key, p.constants.size) :: p.keys ∧ p'.deferred = p.deferred ∧ keyOf h w = some key ∧
        p.keys.find? (·.1 = key) = none) : Pooled h total (vs ++ [v]) (r.push p.constants.size) p' := by
  have hlength : (vs ++ [v]).length = vs.length + 1 := List.length_append
  have hsize : p'.constants.size = p.constants.size + 1 := by rw [hconstants, Array.size_push]
  have hkept : KeptIn p.constants p'.constants := hconstants ▸ KeptIn.push _ _
  have hlast : p'.constants[p.constants.size]? = some w := hconstants ▸ Array.getElem?_push_size
  have horigin : ∀ k u, p'.constants[k]? = some u → p.constants[k]? = some u ∨ k = p.constants.size ∧ u = w := by
    intro k u hu
    rw [hconstants, Array.getElem?_push] at hu
    split at hu
    · next hk => exact .inr ⟨hk, (Option.some.inj hu).symm⟩
    · exact .inl hu
  have hnew : p.constants.size ∉ p.deferred := fun hmem => Nat.lt_irrefl _ (hp.late _ hmem)
  have hdeferred : ∀ k < p.constants.size, k ∈ p'.deferred ↔ k ∈ p.deferred := by
    intro k hk
    rcases hform with ⟨hsame, -⟩ | ⟨hsame, -⟩
    · rw [hsame]
    · rw [hsame, List.mem_cons, or_iff_right (Nat.ne_of_lt hk)]
  have hholds : p'.Holds (r.push p.constants.size) p.constants.size v w := by
    refine hform.imp ?_ ?_
    · exact fun h => ⟨h.1 ▸ hnew, h.2.push (hp.room hlt) _⟩
    · exact fun h => ⟨h.1 ▸ List.mem_cons_self .., h.2⟩
  have hfound : ∀ e ∈ p.keys, e.2 ∉ p'.deferred ∧ ∃ w, p'.constants[e.2]? = some w ∧ keyOf h w = some e.1 := by
    intro e he
    obtain ⟨hsettled, u, hu, hkey⟩ := hp.found e he
    exact ⟨fun hmem => hsettled ((hdeferred _ (hp.lt_of_mem_keys he)).1 hmem), u, hkept _ _ hu, hkey⟩
  refine ⟨hp.total, ?_, ?_, ?_, ?_, ?_, ?_, ?_, ?_⟩
  · rw [hlength, hsize]
    exact hp.numbered.push (Nat.le_succ _) (Nat.succ_le_succ hp.numbered.fewer) (Nat.le_refl _) (Nat.lt_succ_self _)
  · intro k hk
    rw [hsize]
    rcases hform with ⟨hsame, -⟩ | ⟨hsame, -⟩
    · exact Nat.lt_succ_of_lt (hp.late k (hsame ▸ hk))
    · rcases List.mem_cons.1 (hsame ▸ hk) with rfl | hk
      · exact Nat.lt_succ_self _
      · exact Nat.lt_succ_of_lt (hp.late k hk)
  · rcases hform with ⟨hsame, -⟩ | ⟨hsame, -⟩
    · exact hsame ▸ hp.once
    · exact hsame ▸ List.nodup_cons.2 ⟨hnew, hp.once⟩
  · intro i u hu
    rcases getElem?_concat_cases hu with hu | ⟨rfl, rfl⟩
    · exact hp.shows_old hlt hkept hdeferred hu
    · rw [hp.numbered.number_new]
      exact ⟨w, w, hlast, hholds, .inl rfl⟩
  · intro k u hu
    rcases horigin k u hu with hu | ⟨rfl, rfl⟩
    · exact hp.origin_old hlt hdeferred hu
    · refine ⟨vs.length, v, List.getElem?_concat_length, hp.numbered.number_new _, hholds, fun j hj => ?_⟩
      rw [hp.numbered.number_old _ hj]
      exact hp.numbered.below j hj
  · intro e he
    rcases hkeys with ⟨hsame, -⟩ | ⟨key, hsame, hundeferred, hkey, -⟩
    · exact hfound e (hsame ▸ he)
    · rcases List.mem_cons.1 (hsame ▸ he) with rfl | he
      · exact ⟨hundeferred ▸ hnew, w, hlast, hkey⟩
      · exact hfound e he
  · intro k u key hu hsettled hkey
    rcases horigin k u hu with hu | ⟨rfl, rfl⟩
    · have hk := (Array.getElem?_eq_some_iff.1 hu).1
      have hold := hp.indexed k u key hu (mt (hdeferred k hk).2 hsettled) hkey
      rcases hkeys with ⟨hsame, -⟩ | ⟨key', hsame, -, -, hunused⟩
      · rw [hsame, hold]
      · rw [hsame, List.find?_cons_of_neg, hold]
        intro heq
        obtain rfl : key' = key := by simpa using heq
        cases hunused.symm.trans hold
    · rcases hkeys with ⟨-, hunkeyed⟩ | ⟨key', hsame, -, hkey', -⟩
      · rcases hform with ⟨hundeferred, -⟩ | ⟨hsame, -⟩
        · cases (hunkeyed hundeferred).symm.trans hkey
        · exact absurd (hsame ▸ List.mem_cons_self ..) hsettled
      · cases hkey'.symm.trans hkey
        rw [hsame, List.find?_cons_of_pos (by simp)]
  · intro i u hu hunkeyed j hj hsame
    rcases getElem?_concat_cases hu with hu | ⟨rfl, rfl⟩
    · have hlt := hp.numbered.below i (List.getElem?_eq_some_iff.1 hu).1
      rw [hp.number_old _ hu] at hsame
      rcases Nat.lt_succ_iff_lt_or_eq.1 (hlength ▸ hj) with hj | rfl
      · exact hp.apart i u hu hunkeyed j hj (hp.numbered.number_old _ hj ▸ hsame)
      · rw [hp.numbered.number_new] at hsame
        exact absurd hsame (Nat.ne_of_gt hlt)
    · rw [hp.numbered.number_new] at hsame
      rcases Nat.lt_succ_iff_lt_or_eq.1 (hlength ▸ hj) with hj | rfl
      · rw [hp.numbered.number_old _ hj] at hsame
        exact absurd hsame (Nat.ne_of_lt (hp.numbered.below j hj))
      · rfl

/-- The next constant. -/
theorem Pooled.take (htake : p.Takes h r v n p') : Pooled h total (vs ++ [v]) (r.push n) p' := by
  cases htake with
  | known hform hkey hfind => exact hp.reuse hlt hform hkey hfind
  | keyed hform hkey hfind => exact hp.fresh hlt rfl (.inl ⟨rfl, hform⟩) (.inr ⟨_, rfl, rfl, hkey, hfind⟩)
  | plain hform hkey => exact hp.fresh hlt rfl (.inl ⟨rfl, hform⟩) (.inl ⟨rfl, fun _ => hkey⟩)
  | deferred hv =>
    exact hp.fresh hlt rfl (.inr ⟨rfl, rfl, _, hv⟩) (.inl ⟨rfl, fun hsame => absurd hsame (List.cons_ne_self _ _)⟩)

end Step

theorem Pooled.takeAll {rest : List Value} (hp : Pooled h total vs r p) (hlength : (vs ++ rest).length ≤ total) :
    Pooled h total (vs ++ rest) (takeAll h rest r p).1 (takeAll h rest r p).2 := by
  induction rest generalizing vs r p with
  | nil => exact (List.append_nil vs).symm ▸ hp
  | cons v rest ih =>
    have hlt : vs.length < total := by
      rw [List.length_append, List.length_cons] at hlength
      omega
    rw [List.append_cons] at hlength ⊢
    exact ih (hp.take hlt (Pool.takes_take h r p v)) hlength

/-- What holds after all constants of a program were taken in. -/
theorem pooled_takeAll (h : Heap) (cs : Array Value) :
    Pooled h cs.size cs.toList (takeAll h cs.toList { total := cs.size } {}).1
      (takeAll h cs.toList { total := cs.size } {}).2 := by
  have hnil : Pooled h cs.size [] { total := cs.size } {} := by
    refine ⟨rfl, ⟨rfl, Nat.le_refl _, ?_, ?_⟩, ?_, List.nodup_nil, ?_, ?_, ?_, ?_, ?_⟩ <;>
      simp
  exact hnil.takeAll (by simp)

theorem Pool.Takes.deferred_eq (htake : p.Takes h r v n p')
    (hv : ∀ f, v = .function f → ∃ bytes, r.code f.code = some bytes) : p'.deferred = p.deferred := by
  cases htake with
  | deferred hf hcode =>
    obtain ⟨bytes, hbytes⟩ := hv _ hf
    cases hcode.symm.trans hbytes
  | _ => rfl

/-- If every function has its numbers when it is taken in, none is left to be renumbered at the end. -/
theorem deferred_takeAll {cs : List Value} (hcs : ∀ (i : Nat) f (r' : Renumbering), cs[i]? = some (.function f) →
      r'.assigned.size = r.assigned.size + i → ∃ bytes, r'.code f.code = some bytes) :
    (takeAll h cs r p).2.deferred = p.deferred := by
  induction cs generalizing r p with
  | nil => rfl
  | cons v rest ih =>
    have hrest := @ih (r.push (p.take h r v).1) (p.take h r v).2 fun i f r' hf hsize => by
      refine hcs (i + 1) f r' hf ?_
      rw [hsize, Renumbering.push, Array.size_push, Nat.add_assoc, Nat.add_comm 1]
    refine hrest.trans ?_
    refine (Pool.takes_take h r p v).deferred_eq ?_
    rintro f rfl
    exact hcs 0 f r rfl rfl

end Dedup

/-! ### Programs -/

/-- What merging equal constants does to a program: the main function and the constants are
renumbered, and under its new number stands a constant or one with the same key. What stands before a
constant that stays has smaller numbers than it. -/
structure Program.Merges (h : Heap) (ρ : Nat → Nat) (p q : Program) : Prop where
  files : q.files = p.files
  main : p.main.Renumbered p.constants.size ρ q.main
  small : ∀ i < p.constants.size, ρ i ≤ i
  found : ∀ (i : Nat) v, p.constants[i]? = some v → ∃ w u, q.constants[ρ i]? = some u ∧ v.Renumbered p.constants.size ρ w ∧
    Dedup.Alike h w u
  origin : ∀ (k : Nat) u, q.constants[k]? = some u → ∃ (i : Nat) (v : Value), p.constants[i]? = some v ∧
    ρ i = k ∧ v.Renumbered p.constants.size ρ u ∧ ∀ j < i, ρ j < k

/-- A program whose functions refer to earlier constants only. -/
structure Program.LaidOut (p : Program) : Prop where
  main : p.main.LaidOut p.constants.size
  constants : ∀ (i : Nat) v, p.constants[i]? = some v → Value.LaidOut i v

/-- The numbers that constants get when equal ones are merged. -/
def Program.numbering (p : Program) (h : Heap) : Nat → Nat :=
  (Dedup.takeAll h p.constants.toList { total := p.constants.size } {}).1.number

/-- Merging equal constants leaves the program as it was, up to numbers of constants. -/
theorem Program.dedup_merges {p : Program} (hp : p.LaidOut) (h : Heap) : p.Merges h (p.numbering h) (p.dedup h) := by
  have hlaidOut : ∀ {f : Function} {n : Nat} {r : Dedup.Renumbering}, f.LaidOut n → r.assigned.size = n →
      ∃ bytes, r.code f.code = some bytes := by
    rintro f _ r ⟨c, hcode, huses⟩ rfl
    exact ⟨_, hcode ▸ Dedup.Renumbering.code_bytesOf huses 0⟩
  have hpooled := Dedup.pooled_takeAll h p.constants
  have hdeferred : (Dedup.takeAll h p.constants.toList { total := p.constants.size } {}).2.deferred = [] := by
    refine Dedup.deferred_takeAll fun i f r hf hsize => ?_
    have hlaid : Value.LaidOut i (.function f) := hp.constants i _ (by rwa [Array.getElem?_toList] at hf)
    exact hlaidOut hlaid (by simpa using hsize)
  rw [Program.dedup, Program.numbering]
  generalize Dedup.takeAll h p.constants.toList { total := p.constants.size } {} = taken at hpooled hdeferred ⊢
  obtain ⟨r, pool⟩ := taken
  have hdeferred : pool.deferred = [] := hdeferred
  have hnumbered := hpooled.numbered
  rw [Array.length_toList] at hnumbered
  have hsize := hnumbered.assigned
  have hholds : ∀ {k : Nat} {v w : Value}, pool.Holds r k v w → v.Renumbered p.constants.size r.number w := by
    rintro k v w (⟨-, hform⟩ | ⟨hlate, -⟩)
    · exact hsize ▸ hform.renumbered
    · rw [hdeferred] at hlate
      cases hlate
  simp only [hdeferred, List.foldl_nil]
  refine ⟨rfl, ?_, hnumbered.small, fun i v hv => ?_, fun k u hu => ?_⟩
  · obtain ⟨bytes, hbytes⟩ := hlaidOut hp.main hsize
    have hform : Dedup.Forms r (.function p.main) _ := ⟨bytes, hbytes, rfl⟩
    obtain ⟨g, hg, hrenumbered⟩ := hform.renumbered
    cases hg
    rw [Dedup.Renumbering.function, hbytes, ← hsize]
    exact hrenumbered
  · obtain ⟨w, u, hu, hform, halike⟩ := hpooled.shows i v (by rwa [Array.getElem?_toList])
    exact ⟨w, u, hu, hholds hform, halike.elim .inl And.right⟩
  · obtain ⟨i, v, hv, hk, hform, hfirst⟩ := hpooled.origin k u hu
    exact ⟨i, v, by rwa [Array.getElem?_toList] at hv, hk, hholds hform, hfirst⟩

end ScriptEngine
