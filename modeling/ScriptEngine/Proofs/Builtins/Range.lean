import ScriptEngine.Builtin.Call
import Mathlib.Algebra.Order.Floor.Div
/-!
# Ranges

The number of integers in a range is computed before any of them is, and the walk over them stops on its own.
The walk takes as many steps as were counted, also where the last one would leave the 64 bits
(`Builtin.toList_walk`). Main statement: a range is exact (`Builtin.call_range`).
-/

namespace ScriptEngine.Builtin

variable {step : { n : Int // n ≠ 0 }} {i stop : Int64}

theorem ceilDiv_eq_succ {n d : Nat} (hn : 0 < n) (hd : 0 < d) : n ⌈/⌉ d = (n - d) ⌈/⌉ d + 1 := by
  simp only [Nat.ceilDiv_eq_add_pred_div]
  rw [← Nat.add_div_right _ hd]
  rcases Nat.le_total d n with h | h
  · congr 1
    omega
  · rw [Nat.div_eq_of_lt_le (k := 1), Nat.div_eq_of_lt_le] <;> omega

/-- Where the next integer would leave the 64 bits, nothing else is ahead. -/
theorem ahead_le_of_narrow (h : narrow (i.toInt + step) = none) : ahead step i stop ≤ step.val.natAbs := by
  have hstop := And.intro stop.le_toInt stop.toInt_lt
  have hi := And.intro i.le_toInt i.toInt_lt
  rw [narrow, Int64.toInt_minValue, Int64.toInt_maxValue] at h
  split at h
  · cases h
  · rw [ahead]
    split <;> omega

/-- The integers that a walk adds. -/
theorem toList_walk (items : Array Int64) :
    (walk step stop i items).toList =
      items.toList ++ (List.range (ahead step i stop ⌈/⌉ step.val.natAbs)).map
        fun k : Nat => Int64.ofInt (i.toInt + k * step) := by
  have hstep : 0 < step.val.natAbs := Int.natAbs_pos.2 step.property
  fun_induction walk step stop i items with
  | case1 i items hahead next hnext ih =>
    rw [ih, ceilDiv_eq_succ hahead hstep, ← ahead_next hnext, List.range_succ_eq_map, toInt_of_narrow hnext]
    have hshift : ∀ k : Nat, i.toInt + step + k * step = i.toInt + (k.succ) * step := by
      intro k
      rw [Int.natCast_succ, Int.add_mul]
      omega
    simp only [hshift, Array.toList_push, List.append_assoc, List.map_cons, List.map_map, List.singleton_append,
      Function.comp_def, Int.natCast_zero, Int.zero_mul, Int.add_zero, Int64.ofInt_toInt]
  | case2 i items hahead hnext =>
    rw [ceilDiv_eq_succ hahead hstep, Nat.sub_eq_zero_of_le (ahead_le_of_narrow hnext)]
    simp
  | case3 i items hahead =>
    rw [Nat.eq_zero_of_not_pos hahead]
    simp

/-- The walk takes as many steps as were counted. -/
theorem size_walk (step : { n : Int // n ≠ 0 }) (stop i : Int64) :
    (walk step stop i #[]).size = ahead step i stop ⌈/⌉ step.val.natAbs := by
  rw [← Array.length_toList, toList_walk]
  simp

/-- No integer of a walk is past its end, so none has lost bits. -/
theorem toInt_of_walk {k : Nat} {x : Int64} (hx : (walk step stop i #[])[k]? = some x) :
    x.toInt = i.toInt + k * step ∧ 0 < ahead step x stop := by
  obtain ⟨hk, -⟩ := Array.getElem?_eq_some_iff.1 hx
  rw [size_walk] at hk
  have hlt : step.val.natAbs * k < ahead step i stop := by
    refine Nat.lt_of_not_le fun hle => Nat.not_le_of_lt hk ?_
    exact (ceilDiv_le_iff_le_mul (Int.natAbs_pos.2 step.property)).2 hle
  rw [← Array.getElem?_toList, toList_walk, List.nil_append, List.getElem?_map, List.getElem?_range hk] at hx
  cases hx
  have hi := And.intro i.le_toInt i.toInt_lt
  have hstop := And.intro stop.le_toInt stop.toInt_lt
  have hprod : (k * step.val).natAbs = step.val.natAbs * k := by
    rw [Int.natAbs_mul, Int.natAbs_natCast, Nat.mul_comm]
  have hsign : 0 < step.val ∧ 0 ≤ k * step.val ∨ step.val < 0 ∧ k * step.val ≤ 0 := by
    rcases Int.lt_or_gt_of_ne step.property with h | h
    · exact .inr ⟨h, Int.mul_nonpos_of_nonneg_of_nonpos (Int.natCast_nonneg k) (Int.le_of_lt h)⟩
    · exact .inl ⟨h, Int.mul_nonneg (Int.natCast_nonneg k) (Int.le_of_lt h)⟩
  rw [ahead] at hlt
  have hx : (Int64.ofInt (i.toInt + k * step.val)).toInt = i.toInt + k * step.val := by
    apply Int64.toInt_ofInt_of_le <;> split at hlt <;> omega
  refine ⟨hx, ?_⟩
  rw [ahead, hx]
  split at hlt <;> split <;> omega

theorem stride_eq (start stop : Int64) {step : Int64} (h : ¬ step ≤ 0) :
    0 < step.toInt ∧ (start.toInt ≤ stop.toInt ∧ (stride start stop h).val = step.toInt ∨
      stop.toInt < start.toInt ∧ (stride start stop h).val = -step.toInt) := by
  refine ⟨Int64.lt_iff_toInt_lt.1 (Int64.not_le.1 h), ?_⟩
  by_cases hle : start ≤ stop
  · exact .inl ⟨Int64.le_iff_toInt_le.1 hle, if_pos hle⟩
  · exact .inr ⟨Int64.lt_iff_toInt_lt.1 (Int64.not_le.1 hle), if_neg hle⟩

/-- The integers of a range are counted by the way from its start to its end. -/
theorem size_range (start stop : Int64) {step : Int64} (h : ¬ step ≤ 0) :
    (walk (stride start stop h) stop start #[]).size = rangeCount start.toInt stop.toInt step.toInt := by
  have hstride := stride_eq start stop h
  have hahead : ahead (stride start stop h) start stop = (stop.toInt - start.toInt).natAbs := by
    rw [ahead]
    split <;> omega
  have hsize : (stride start stop h).val.natAbs = step.toInt.toNat := by omega
  rw [size_walk, hahead, hsize, rangeCount, Nat.ceilDiv_eq_add_pred_div]

/-- A range fails iff it has too many integers; otherwise it has exactly those from the start on that are
before the end, none of them wrapped around. -/
theorem call_range (limits : Limits) (start stop : Int64) {step : Int64} (hstep : 0 < step) (h : Heap) :
    let count := (stop.toInt - start.toInt).natAbs ⌈/⌉ step.toInt.toNat
    let result := call limits .range [.int start, .int stop, .int step] h
    (limits.maxArray < count → result = .error .arrayLimit h) ∧
    (count ≤ limits.maxArray → ∃ items : Array Int64, result = HeapM.array (items.map .int) h ∧ items.size = count ∧
      ∀ (k : Nat) (x : Int64), items[k]? = some x →
        (start ≤ stop → x.toInt = start.toInt + k * step.toInt ∧ start ≤ x ∧ x < stop) ∧
        (stop < start → x.toInt = start.toInt - k * step.toInt ∧ x ≤ start ∧ stop < x)) := by
  intro count result
  have hneg := Int64.not_le.2 hstep
  have hresult : result = (HeapM.ofExcept (limits.checkArray count) >>= fun _ =>
      HeapM.array ((walk (stride start stop hneg) stop start #[]).map .int)) h := congrFun (dif_neg hneg) h
  refine ⟨fun hmany => ?_, fun hfew => ⟨_, ?_, size_range start stop hneg, fun k x hx => ?_⟩⟩
  · rw [hresult, Limits.checkArray, if_pos hmany]
    rfl
  · rw [hresult, Limits.checkArray, if_neg (Nat.not_lt.2 hfew)]
    rfl
  · obtain ⟨hvalue, hahead⟩ := toInt_of_walk hx
    obtain ⟨hpos, hstride⟩ := stride_eq start stop hneg
    have hway : 0 ≤ k * step.toInt := Int.mul_nonneg (Int.natCast_nonneg k) (Int.le_of_lt hpos)
    rw [ahead] at hahead
    simp only [Int64.le_iff_toInt_le, Int64.lt_iff_toInt_lt]
    rcases hstride with ⟨hle, hstride⟩ | ⟨hlt, hstride⟩
    · rw [hstride] at hvalue
      rw [hstride, if_pos hpos] at hahead
      omega
    · rw [hstride, Int.mul_neg] at hvalue
      rw [hstride, if_neg (by omega)] at hahead
      omega

/-- From the least integer to the greatest one: after the fourth step the next would have too many bits. -/
theorem call_range_all :
    (0 : Int64) < 4611686018427387904 ∧ ∃ items : Array Int64,
      call {} .range [.int Int64.minValue, .int Int64.maxValue, .int 4611686018427387904] {} =
        HeapM.array (items.map .int) {} ∧ items.size = 4 := by
  have hstep : (0 : Int64) < 4611686018427387904 := by decide
  obtain ⟨items, hcall, hsize, -⟩ := (call_range {} Int64.minValue Int64.maxValue hstep {}).2 (by decide)
  exact ⟨hstep, items, hcall, hsize⟩

end ScriptEngine.Builtin
