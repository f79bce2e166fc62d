import ScriptEngine.Proofs.Program.Pooled
/-!
# Merging constants once more

A function that refers to constants without a number yet is not merged, so merging can make functions equal that
were told apart before: merged once more, they become one (`Program.dedup_twice_twins`). Main statement: if every
function refers only to constants before it, or no two constants with one key are left, then merging once more
changes nothing (`Program.dedup_dedup`).
-/

namespace ScriptEngine

namespace Dedup

variable {h : Heap} {r : Renumbering} {p : Pool} {v w : Value}

/-! ### Numbers that stay -/

/-- All numbers that are there are the old ones. -/
def Renumbering.IsSame (r : Renumbering) : Prop := ∀ i < r.assigned.size, r.number i = i

theorem Renumbering.IsSame.instruction (hr : r.IsSame) {i j : Instruction} (hfits : i.toLine.Fits)
    (hj : r.instruction i = some j) : j = i := by
  obtain ⟨offset, op, operands⟩ := i
  rw [Renumbering.instruction] at hj
  split at hj
  · next hop =>
    have hfits : OperandsFit op.widths operands := hfits
    rw [widths_of_takesConstant hop] at hfits
    cases operands with
    | nil => exact hfits.elim
    | cons k rest =>
      rw [Instruction.first, List.headD_cons] at hj
      split at hj
      · next new hnew =>
        have hk := (Array.getElem?_eq_some_iff.1 hnew).1
        have hsame : r.number k = new := by rw [Renumbering.number, Array.getD_eq_getD_getElem?, hnew]; rfl
        cases hj
        rw [← hsame, hr k hk]
        rfl
      · split at hj <;> cases hj
        rfl
  · cases hj
    rfl

theorem eq_of_mapM {α : Type} {g : α → Option α} {xs ys : List α} (h : xs.mapM g = some ys)
    (hsame : ∀ x ∈ xs, ∀ y, g x = some y → y = x) : ys = xs := by
  induction xs generalizing ys with
  | nil =>
    cases h
    rfl
  | cons x rest ih =>
    rw [List.mapM_cons] at h
    obtain ⟨y, hy, h⟩ := Option.bind_eq_some_iff.1 h
    obtain ⟨ys', hrest, heq⟩ := Option.bind_eq_some_iff.1 h
    cases heq
    rw [hsame x (List.mem_cons_self ..) y hy, ih hrest fun z hz => hsame z (List.mem_cons_of_mem _ hz)]

theorem Renumbering.IsSame.code (hr : r.IsSame) {code : Array UInt8} {bytes : List UInt8}
    (hcode : r.code code = some bytes) : bytes = code.toList := by
  rw [Renumbering.code] at hcode
  split at hcode
  · cases hcode
  · next hfault =>
    have hwhole : (walk code).fault = none := by simpa using hfault
    obtain ⟨is, his, rfl⟩ := Option.map_eq_some_iff.1 hcode
    rw [eq_of_mapM his fun i hi j => hr.instruction ((covers_walk hwhole).fits i hi), ← bytesOf_walk hwhole, bytesOf,
      List.flatMap_map]
    rfl

theorem Renumbering.IsSame.function (hr : r.IsSame) (f : Function) : (r.function f).getD f = f := by
  rw [Renumbering.function]
  cases hcode : r.code f.code with
  | none => rfl
  | some bytes => rw [hr.code hcode]; rfl

theorem Renumbering.IsSame.constant (hr : r.IsSame) (v : Value) : r.constant v = v := by
  cases v with
  | function f => exact congrArg Value.function (hr.function f)
  | _ => rfl

theorem Renumbering.IsSame.forms (hr : r.IsSame) (hw : Forms r v w) : w = v := by
  cases v with
  | function f =>
    obtain ⟨bytes, hcode, rfl⟩ := hw
    rw [hr.code hcode]
  | _ => exact hw

/-! ### Constants that stay -/

/-- No two constants have one key. -/
def Untwinned (h : Heap) (cs : Array Value) : Prop :=
  ∀ (i j : Nat) v w key, cs[i]? = some v → cs[j]? = some w → keyOf h v = some key → keyOf h w = some key → i = j

/-- The constants `vs` were taken in as they are, each under the number it had. -/
structure Mirrors (h : Heap) (vs : List Value) (r : Renumbering) (p : Pool) : Prop where
  assigned : r.assigned.size = vs.length
  same : r.IsSame
  constants : p.constants = vs.toArray
  keys : ∀ e ∈ p.keys, ∃ v ∈ vs, keyOf h v = some e.1

theorem Mirrors.fresh {vs : List Value} {p' : Pool} (hp : Mirrors h vs r p)
    (hconstants : p'.constants = p.constants.push v)
    (hkeys : ∀ e ∈ p'.keys, e ∈ p.keys ∨ keyOf h v = some e.1) :
    Mirrors h (vs ++ [v]) (r.push p.constants.size) p' := by
  have hsize : p.constants.size = r.assigned.size := by rw [hp.constants, hp.assigned]; rfl
  refine ⟨?_, fun i hi => ?_, ?_, fun e he => ?_⟩
  · rw [Renumbering.push, Array.size_push, hp.assigned, List.length_append]
    rfl
  · have hi : i < r.assigned.size + 1 := by simpa [Renumbering.push] using hi
    rcases Nat.lt_succ_iff_lt_or_eq.1 hi with hi | rfl
    · exact (Renumbering.number_push_of_lt hi _).trans (hp.same i hi)
    · simp [Renumbering.number, Renumbering.push, hsize]
  · rw [hconstants, hp.constants]
    simp
  · rcases hkeys e he with he | hv
    · obtain ⟨u, hu, hkey⟩ := hp.keys e he
      exact ⟨u, List.mem_append_left _ hu, hkey⟩
    · exact ⟨v, List.mem_append_right _ (List.mem_singleton_self v), hv⟩

theorem Mirrors.take {vs : List Value} {n : Nat} {p' : Pool} (hp : Mirrors h vs r p)
    (hnew : ∀ u ∈ vs, ∀ key, keyOf h u = some key → keyOf h v ≠ some key) (htake : p.Takes h r v n p') :
    Mirrors h (vs ++ [v]) (r.push n) p' := by
  cases htake with
  | known hform hkey hfind =>
    obtain rfl := hp.same.forms hform
    obtain ⟨u, hu, hkey'⟩ := hp.keys _ (List.mem_of_find?_eq_some hfind)
    exact absurd hkey (hnew u hu _ hkey')
  | keyed hform hkey =>
    obtain rfl := hp.same.forms hform
    refine hp.fresh rfl fun e he => ?_
    rcases List.mem_cons.1 he with rfl | he
    · exact .inr hkey
    · exact .inl he
  | plain | deferred => exact hp.fresh rfl fun e he => .inl he

theorem Mirrors.takeAll {vs rest : List Value} (hp : Mirrors h vs r p) (hcs : Untwinned h (vs ++ rest).toArray) :
    Mirrors h (vs ++ rest) (takeAll h rest r p).1 (takeAll h rest r p).2 := by
  induction rest generalizing vs r p with
  | nil => exact (List.append_nil vs).symm ▸ hp
  | cons v rest ih =>
    rw [List.append_cons] at hcs ⊢
    refine ih (hp.take (fun u hu key hkey hkey' => ?_) (Pool.takes_take h r p v)) hcs
    obtain ⟨i, hi, rfl⟩ := List.mem_iff_getElem.1 hu
    have heq := hcs i vs.length _ v key (by simp [List.getElem?_append_left, hi]) (by simp) hkey hkey'
    omega

end Dedup

open Dedup

namespace Program

variable {p : Program} {h : Heap}

/-- Where no two constants have one key, there is nothing to merge. -/
theorem dedup_of_untwinned (hp : Untwinned h p.constants) : p.dedup h = p := by
  have hnil : Mirrors h [] { total := p.constants.size } {} :=
    ⟨rfl, fun i hi => absurd hi (Nat.not_lt_zero i), rfl, fun e he => absurd he List.not_mem_nil⟩
  have hcs : Untwinned h ([] ++ p.constants.toList).toArray := hp
  have hmirrors := hnil.takeAll hcs
  rw [dedup]
  generalize Dedup.takeAll h p.constants.toList { total := p.constants.size } {} = taken at hmirrors
  obtain ⟨r, pool⟩ := taken
  have hconstants : pool.constants = p.constants := hmirrors.constants
  have hkept : ∀ ks : List Nat, ks.foldl (fun cs i => cs.modify i r.constant) p.constants = p.constants := by
    have hmodify : ∀ k, p.constants.modify k r.constant = p.constants := by
      intro k
      apply Array.ext <;> simp [Array.getElem_modify, hmirrors.same.constant]
    intro ks
    induction ks with
    | nil => rfl
    | cons k rest ih => rw [List.foldl_cons, hmodify, ih]
  simp only [hmirrors.same.function, hconstants, hkept]

/-- If functions refer only to constants before them, no two constants with one key are left. -/
theorem untwinned_dedup (hvalid : p.validate = .ok ())
    (hrefers : ∀ (i : Nat) f, p.constants[i]? = some (.function f) → f.RefersBelow i) :
    Untwinned h (p.dedup h).constants := by
  have hdeferred : (takeAll h p.constants.toList { total := p.constants.size } {}).2.deferred = [] := by
    refine deferred_takeAll fun i f r hf hsize => ?_
    rw [Array.getElem?_toList] at hf
    have hlisted := List.mem_cons_of_mem p.main (mem_functions_iff.2 (Array.mem_of_getElem? hf))
    exact ⟨_, Renumbering.code_of_refers (validate_eq_ok_iff.1 hvalid f hlisted).whole
      (by simpa [hsize, Function.RefersBelow] using hrefers i f hf)⟩
  have hindexed := (pooled_takeAll h p.constants).indexed
  rw [dedup]
  generalize takeAll h p.constants.toList { total := p.constants.size } {} = taken at hdeferred hindexed
  obtain ⟨r, pool⟩ := taken
  have hdeferred : pool.deferred = [] := hdeferred
  simp only [hdeferred, List.foldl_nil]
  have hnone : ∀ k, k ∉ pool.deferred := by simp [hdeferred]
  intro i j v w key hv hw hkey hkey'
  have hi := hindexed i v key hv (hnone i) hkey
  rw [hindexed j w key hw (hnone j) hkey'] at hi
  cases hi
  rfl

/-- Merging the constants of a program that validation accepts once more changes nothing, if every function refers
only to constants before it or if no two constants with one key are left. -/
theorem dedup_dedup (p : Program) (h : Heap) (hvalid : p.validate = .ok ())
    (hp : (∀ (i : Nat) f, p.constants[i]? = some (.function f) → f.RefersBelow i) ∨
      Untwinned h (p.dedup h).constants) : (p.dedup h).dedup h = p.dedup h :=
  dedup_of_untwinned (hp.elim (untwinned_dedup hvalid) id)

/-- Two equal numbers, and a function that loads the last. -/
def doubled : Program where
  main := loading 0 2
  constants := #[.int 7, .int 7, .function (loading 1 1)]

theorem dedup_dedup_doubled :
    (doubled.dedup {}).constants.size = 2 ∧ (doubled.dedup {}).dedup {} = doubled.dedup {} := by
  refine ⟨by cbv, dedup_dedup doubled {} (by cbv) (.inl fun i f hf j hj hop => ?_)⟩
  have hwalk : (walk (loading 1 1).code).instructions = #[⟨0, .const, [1]⟩] := by cbv
  obtain ⟨rfl, rfl⟩ : i = 2 ∧ f = loading 1 1 := by
    rcases i with _ | _ | _ | i <;> simp_all [doubled]
  obtain rfl : j = ⟨0, .const, [1]⟩ := by simpa [hwalk] using hj
  decide

/-- Two functions that load the last of two equal numbers. -/
def twins : Program where
  main := loading 0 1
  constants := #[.int 7, .function (loading 1 3), .function (loading 2 3), .int 7]

/-- The two functions are told apart while the number they load is not taken in, and become one the next time. -/
theorem dedup_twice_twins :
    twins.validate = .ok () ∧ (twins.dedup {}).constants.size = 3 ∧
      ((twins.dedup {}).dedup {}).constants.size = 2 :=
  ⟨by cbv, by cbv, by cbv⟩

end Program

end ScriptEngine
