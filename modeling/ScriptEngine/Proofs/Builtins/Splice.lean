import ScriptEngine.Proofs.Builtins.Effects
/-!
# Splicing

`splice` takes a part out of an array, puts other values in its place and gives what it took out as a new
array. Main statement: it is exact (`Builtin.call_splice`). Places are whole numbers there, so that a count can
go past the end however large it is.
-/

namespace ScriptEngine.Builtin

/-- What `splice` is told besides the array; what is left out is left out from the right. -/
inductive Splice where
  | all
  | since (start : Int64)
  | part (start count : Int64) (items : List Value)

namespace Splice

/-- The arguments after the array. -/
def arguments : Splice → List Value
  | .all => []
  | .since start => [.int start]
  | .part start count items => .int start :: .int count :: items

/-- Where the part starts. -/
def start : Splice → Int
  | .all => 0
  | .since start | .part start _ _ => start.toInt

/-- How many items are taken out, if it is told. -/
def count? : Splice → Option Int
  | .part _ count _ => some count.toInt
  | _ => none

/-- What is put in. -/
def items : Splice → List Value
  | .part _ _ items => items
  | _ => []

/-- Where the part ends in an array of `n` items. -/
def stop (p : Splice) (n : Nat) : Int := p.count?.elim n fun count => min (p.start + count) n

/-- An array of `n` items has no such part. -/
def IsOut (p : Splice) (n : Nat) : Prop := p.start < 0 ∨ n < p.start ∨ ∃ count ∈ p.count?, count < 0

instance (p : Splice) (n : Nat) : Decidable (p.IsOut n) :=
  inferInstanceAs (Decidable (_ ∨ _ ∨ ∃ count ∈ p.count?, count < 0))

/-- What an array of some items becomes. -/
def result (p : Splice) (old : List Value) : List Value :=
  old.take p.start.toNat ++ p.items ++ old.drop (p.stop old.length).toNat

/-- What is taken out of it. -/
def removed (p : Splice) (old : List Value) : List Value :=
  (old.take (p.stop old.length).toNat).drop p.start.toNat

variable {p : Splice} {n : Nat}

theorem bounds_of_not_isOut (h : ¬ p.IsOut n) :
    p.start.toNat ≤ (p.stop n).toNat ∧ (p.stop n).toNat ≤ n ∧ 0 ≤ p.start := by
  rw [IsOut, not_or, not_or] at h
  obtain ⟨hstart, hlength, hcount⟩ := h
  rw [stop]
  cases hsome : p.count? with
  | none =>
    simp only [Option.elim_none]
    omega
  | some count =>
    have hpos : ¬ count < 0 := fun hneg => hcount ⟨count, hsome, hneg⟩
    simp only [Option.elim_some]
    omega

theorem countArgument_int {args : List Value} {i : Nat} {v : Int64} (h : argument args i = .int v) :
    countArgument args i = if v.toInt < 0 then .error .indexOutOfBounds else .ok v.toInt.toNat := by
  rw [countArgument, intArgument, h]
  simp only [Int64.lt_iff_toInt_lt, Int64.toInt_zero]
  rfl

theorem spliceRange_eq (args : List Value) (n : Nat) : spliceRange args n =
    ((if 1 < args.length then countArgument args 1 else .ok 0) >>= fun start =>
      if n < start then .error .indexOutOfBounds
      else (if 2 < args.length then countArgument args 2 else .ok (n - start)) >>= fun count =>
        .ok (start, min (start + count) n)) := by
  unfold spliceRange
  by_cases hone : 1 < args.length <;> by_cases htwo : 2 < args.length <;> simp only [hone, htwo, if_true, if_false] <;> rfl

theorem start_arguments (v : Value) (p : Splice) :
    (if 1 < (v :: p.arguments).length then countArgument (v :: p.arguments) 1 else .ok 0) =
      if p.start < 0 then .error .indexOutOfBounds else .ok p.start.toNat := by
  cases p with
  | all => rfl
  | since => exact countArgument_int rfl
  | part => exact (if_pos (by simp [arguments])).trans (countArgument_int rfl)

theorem count_arguments (v : Value) (p : Splice) (rest : Nat) :
    (if 2 < (v :: p.arguments).length then countArgument (v :: p.arguments) 2 else .ok rest) =
      if ∃ count ∈ p.count?, count < 0 then .error .indexOutOfBounds else .ok (p.count?.elim rest Int.toNat) := by
  cases p with
  | all | since => simp [arguments, count?]
  | part start count items =>
    rw [if_pos (by simp [arguments]), countArgument_int rfl]
    simp [count?]

/-- The part that is taken out is the one that the arguments tell. -/
theorem spliceRange_arguments (v : Value) (p : Splice) (n : Nat) :
    spliceRange (v :: p.arguments) n =
      if p.IsOut n then .error .indexOutOfBounds else .ok (p.start.toNat, (p.stop n).toNat) := by
  rw [spliceRange_eq, start_arguments]
  by_cases hneg : p.start < 0
  · rw [if_pos hneg, if_pos (.inl hneg)]
    rfl
  rw [if_neg hneg]
  change (if n < p.start.toNat then _ else _) = _
  by_cases hlong : n < p.start
  · rw [if_pos (by omega), if_pos (.inr (.inl hlong))]
  rw [if_neg (by omega), count_arguments]
  by_cases hcount : ∃ count ∈ p.count?, count < 0
  · rw [if_pos hcount, if_pos (.inr (.inr hcount))]
    rfl
  have hstop : min (p.start.toNat + p.count?.elim (n - p.start.toNat) Int.toNat) n = (p.stop n).toNat := by
    rw [stop]
    cases hsome : p.count? with
    | none =>
      simp only [Option.elim_none]
      omega
    | some count =>
      have hpos : ¬ count < 0 := fun hneg => hcount ⟨count, hsome, hneg⟩
      simp only [Option.elim_some]
      omega
  rw [if_neg hcount, if_neg (by simp only [IsOut, hneg, hlong, hcount, or_self, not_false_eq_true]), ← hstop]
  rfl

/-- An array with a part taken out and other items put in, as the parts are copied. -/
theorem result_toArray (items : Array Value) :
    items.extract 0 p.start.toNat ++ p.items ++ items.extract (p.stop items.size).toNat items.size =
      (p.result items.toList).toArray := by
  apply Array.ext'
  simp [result]

theorem removed_toArray (items : Array Value) :
    items.extract p.start.toNat (p.stop items.size).toNat = (p.removed items.toList).toArray := by
  apply Array.ext'
  simp [removed, List.drop_take]

theorem length_result {old : List Value} (hin : ¬ p.IsOut old.length) : (p.result old).length =
    old.length - ((p.stop old.length).toNat - p.start.toNat) + p.items.length := by
  have hbounds := bounds_of_not_isOut hin
  simp only [result, List.length_append, List.length_take, List.length_drop]
  omega

/-- The array is changed before the part that is taken out becomes a new array. -/
theorem call_eq (limits : Limits) (p : Splice) (h : Heap) (a : Addr) :
    call limits .splice (.array a :: p.arguments) h =
      if p.IsOut (h.array a).toList.length then .error .indexOutOfBounds h
      else if limits.maxArray < (p.result (h.array a).toList).length then .error .arrayLimit h
      else HeapM.array (p.removed (h.array a).toList).toArray
        (h.setArray a (p.result (h.array a).toList).toArray) := by
  generalize hitems : h.array a = items
  have hdrop : (Value.array a :: p.arguments).drop 3 = p.items := by cases p <;> rfl
  have hcall : call limits .splice (.array a :: p.arguments) h =
      (HeapM.ofExcept (spliceRange (.array a :: p.arguments) items.size) >>= fun r =>
        HeapM.ofExcept (limits.checkArray
          (items.size - (r.2 - r.1) + ((Value.array a :: p.arguments).drop 3).length)) >>= fun _ =>
        modify (Heap.setArray · a (items.extract 0 r.1 ++ (Value.array a :: p.arguments).drop 3 ++
          items.extract r.2 items.size)) >>= fun _ =>
        HeapM.array (items.extract r.1 r.2)) h := by
    rw [← hitems]
    rfl
  rw [hcall, hdrop, spliceRange_arguments, ← Array.length_toList]
  by_cases hout : p.IsOut items.toList.length
  · rw [if_pos hout, if_pos hout]
    rfl
  · rw [if_neg hout, if_neg hout, length_result hout, ← result_toArray, ← removed_toArray, Array.length_toList]
    change (HeapM.ofExcept (ite (limits.maxArray < items.size - _ + p.items.length) _ _) >>= fun _ => _) h = _
    split <;> rfl

/-- What was there before is the kept part in front, what was taken out and the kept part behind. -/
theorem result_split {old : List Value} (hin : ¬ p.IsOut old.length) :
    old = (p.result old).take p.start.toNat ++ p.removed old ++
      (p.result old).drop (p.start.toNat + p.items.length) := by
  obtain ⟨hle, hstop, -⟩ := bounds_of_not_isOut hin
  have hfront : (old.take p.start.toNat).length = p.start.toNat := by
    rw [List.length_take]
    omega
  have htake : (p.result old).take p.start.toNat = old.take p.start.toNat := by
    rw [result, List.append_assoc, List.take_append_of_le_length (by omega), List.take_take, Nat.min_self]
  have hdrop : (p.result old).drop (p.start.toNat + p.items.length) = old.drop (p.stop old.length).toNat := by
    rw [result, List.drop_left' (by rw [List.length_append, hfront])]
  calc old = old.take (p.stop old.length).toNat ++ old.drop (p.stop old.length).toNat := (List.take_append_drop _ _).symm
    _ = (old.take p.start.toNat ++ p.removed old) ++ old.drop (p.stop old.length).toNat := by
        rw [removed, List.drop_take, ← List.take_add, Nat.add_sub_cancel' hle]
    _ = _ := by rw [htake, hdrop]

end Splice

/-- A splice fails iff the array has no such part or the result is too long; otherwise the array has the new
items in place of the part, which is a new array, and all else is as it was. -/
theorem call_splice (limits : Limits) (p : Splice) {h : Heap} {a : Addr} (ha : a < h.arrays.size) :
    let old := (h.array a).toList
    let outcome := call limits .splice (.array a :: p.arguments) h
    (outcome = .error .indexOutOfBounds h ↔ p.IsOut old.length) ∧
    (outcome = .error .arrayLimit h ↔ ¬ p.IsOut old.length ∧ limits.maxArray < (p.result old).length) ∧
    (¬ p.IsOut old.length → (p.result old).length ≤ limits.maxArray → ∃ b h', outcome = .ok (.array b) h' ∧
      ¬ h.Holds (.array b) ∧ (h'.array b).toList = p.removed old ∧ (h'.array a).toList = p.result old ∧
      h.KeepsBut (· = .array a) h' ∧
      old = (p.result old).take p.start.toNat ++ p.removed old ++
        (p.result old).drop (p.start.toNat + p.items.length)) := by
  intro old outcome
  have houtcome : outcome = if p.IsOut old.length then .error .indexOutOfBounds h
      else if limits.maxArray < (p.result old).length then .error .arrayLimit h
      else HeapM.array (p.removed old).toArray (h.setArray a (p.result old).toArray) := Splice.call_eq limits p h a
  by_cases hout : p.IsOut old.length
  · rw [if_pos hout] at houtcome
    simp [houtcome, hout]
  by_cases hmany : limits.maxArray < (p.result old).length
  · rw [if_neg hout, if_pos hmany] at houtcome
    simp [houtcome, hout, hmany]
  rw [if_neg hout, if_neg hmany] at houtcome
  refine ⟨by simp [houtcome, hout, HeapM.array, Heap.newArray], by simp [houtcome, hmany, HeapM.array, Heap.newArray],
    fun _ _ => ?_⟩
  generalize hspliced : h.setArray a (p.result old).toArray = spliced at houtcome
  have hset : spliced.array a = (p.result old).toArray := hspliced ▸ Heap.array_setArray h ha _
  have hsize : spliced.arrays.size = h.arrays.size := hspliced ▸ Array.size_setIfInBounds
  have hkept : h.KeepsBut (· = .array a) spliced := by
    rw [← hspliced]
    exact .setArray (by rfl) h _
  refine ⟨_, (spliced.newArray (p.removed old).toArray).2, houtcome, fun hold => ?_, ?_, ?_, hkept.trans (.newArray _ _),
    Splice.result_split hout⟩
  · exact Nat.lt_irrefl _ (hsize ▸ hold)
  · exact congrArg Array.toList (spliced.array_newArray _)
  · rw [Heap.array_newArray_of_lt _ _ (hsize ▸ ha), hset]

/-- The count goes far past the end, and the array is put into itself. -/
theorem call_splice_self : ∃ b h', 0 < (Heap.newArray {} #[.int 1, .int 2]).2.arrays.size ∧
    call {} .splice (.array 0 :: (Splice.part 1 Int64.maxValue [.array 0]).arguments)
      (Heap.newArray {} #[.int 1, .int 2]).2 = .ok (.array b) h' ∧
    (h'.array b).toList = [.int 2] ∧ (h'.array 0).toList = [.int 1, .array 0] := by
  have hlt : 0 < (Heap.newArray {} #[.int 1, .int 2]).2.arrays.size := by decide
  obtain ⟨b, h', hcall, -, hremoved, hresult, -⟩ :=
    (call_splice {} (.part 1 Int64.maxValue [.array 0]) hlt).2.2 (by decide) (by decide)
  exact ⟨b, h', hlt, hcall, hremoved, hresult⟩

end ScriptEngine.Builtin
