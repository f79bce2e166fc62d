import ScriptEngine.Builtin.Call
import ScriptEngine.Proofs.Value.Effects
/-!
# Parts of sequences

Texts, bytes and arrays, frozen or not, are sequences of items. `Value.Lists` says which items, and indexing, `len`,
slices and `+` are all told by it, whatever the kind. Main statement: they fit together (`Value.Lists.parts`). Texts
are cut between characters, while their sizes count bytes.
-/

namespace ScriptEngine.Value

/-- What is joined with what. -/
inductive Kind where
  | text
  | bytes
  | array
  deriving DecidableEq

/-- The items of a sequence that a heap holds. -/
inductive Lists (h : Heap) : Kind → Value → List Value → Prop where
  | text (cs : List Char) : Lists h .text (.string (String.ofList cs)) (cs.map .char)
  | bytes (a : Addr) (ha : a < h.buffers.size) :
    Lists h .bytes (.bytes a) ((h.buffer a).toList.map fun b => .int b.toNat.toInt64)
  | array (a : Addr) (ha : a < h.arrays.size) : Lists h .array (.array a) (h.array a).toList
  | frozenArray (a : Addr) (ha : a < h.arrays.size) : Lists h .array (.frozenArray a) (h.array a).toList

/-- The size that is compared with a limit: the bytes of a text, else the number of items. -/
def Kind.size (items : List Value) : Kind → Nat
  | .text => (String.ofList (items.filterMap toChar?)).utf8ByteSize
  | .bytes | .array => items.length

def Kind.ceiling (limits : Limits) : Kind → Nat
  | .text => limits.maxString
  | .bytes => limits.maxBytes
  | .array => limits.maxArray

/-- A bound of a slice as it is given; nothing is given for one that is left out. -/
def bound (b : Option Int64) : Value := b.elim .undefined .int

/-- A bound cut to the length. -/
def cut (n default : Nat) (b : Option Int64) : Nat := b.elim default fun i => min i.toInt.toNat n

theorem cut_le {n default : Nat} (h : default ≤ n) (b : Option Int64) : cut n default b ≤ n := by
  cases b with
  | none => exact h
  | some i => exact Nat.min_le_right ..

theorem cut_toInt64 {i n : Nat} (hi : i ≤ n) (hn : n < 2 ^ 63) (default : Nat) :
    cut n default (some i.toInt64) = i := by
  rw [cut, Option.elim_some, Int64.toInt_ofNat_of_lt (by omega)]
  omega

theorem sliceBounds_bound (n : Nat) (low high : Option Int64) : sliceBounds n (bound low) (bound high) =
    if cut n n high < cut n 0 low then .error (.sliceBounds (cut n 0 low) (cut n n high))
    else .ok (cut n 0 low, cut n n high) := by
  cases low <;> cases high <;> rfl

namespace Lists

variable {h h' : Heap} {k : Kind} {v w : Value} {xs ys : List Value}

theorem bind_eq {α β : Type} {x : HeapM α} {f : α → HeapM β} {a : α} (hx : x h = .ok a h') : (x >>= f) h = f a h' := by
  change EStateM.bind x f h = _
  rw [EStateM.bind, hx]

theorem keep (hv : v.Lists h k xs) (hkeep : h.KeepsBut (fun _ => False) h') : v.Lists h' k xs := by
  cases hv with
  | text cs => exact .text cs
  | bytes a ha =>
    rw [← hkeep.buffer_eq ha id]
    exact .bytes _ (Nat.lt_of_lt_of_le ha hkeep.buffers.size_le)
  | array a ha =>
    rw [← hkeep.array_eq ha id]
    exact .array _ (Nat.lt_of_lt_of_le ha hkeep.arrays.size_le)
  | frozenArray a ha =>
    rw [← hkeep.array_eq ha id]
    exact .frozenArray _ (Nat.lt_of_lt_of_le ha hkeep.arrays.size_le)

/-- A new array lists its items, and no array of the heap is it. -/
theorem newArray (h : Heap) (items : Array Value) : ∃ w h', HeapM.array items h = .ok w h' ∧
    w.Lists h' .array items.toList ∧ h.KeepsBut (fun _ => False) h' ∧ ¬ h.Holds w := by
  refine ⟨_, _, rfl, ?_, .newArray h items, Nat.lt_irrefl _⟩
  have hnew := Lists.array (h := (h.newArray items).2) h.arrays.size (by simp [Heap.newArray])
  rwa [show (h.newArray items).2.array h.arrays.size = items from h.array_newArray items] at hnew

theorem newBytes (h : Heap) (items : Array UInt8) : ∃ w h', HeapM.bytes items h = .ok w h' ∧
    w.Lists h' .bytes (items.toList.map fun b => .int b.toNat.toInt64) ∧ h.KeepsBut (fun _ => False) h' ∧
    ¬ h.Holds w := by
  refine ⟨_, _, rfl, ?_, .newBuffer h items, Nat.lt_irrefl _⟩
  have hnew := Lists.bytes (h := (h.newBuffer items).2) h.buffers.size (by simp [Heap.newBuffer])
  rwa [show (h.newBuffer items).2.buffer h.buffers.size = items by simp [Heap.newBuffer, Heap.buffer]] at hnew

theorem get_eq (hv : v.Lists h k xs) {i : Nat} (hi : i < xs.length) (hsize : xs.length < 2 ^ 63) :
    v.get h (.int i.toInt64) = .ok xs[i] := by
  have hitem : ∀ {α : Type} (items : Array α) (hlt : i < items.size),
      itemAt items (.int i.toInt64) = .ok items[i] := by
    intro α items hlt
    have hfound : itemAt? items i.toInt64.toInt = some items[i] := by
      rw [itemAt?, Int64.toInt_ofNat_of_lt (by omega), if_pos (by omega), Int.toNat_natCast]
      exact Array.getElem?_eq_getElem hlt
    simp only [itemAt, asIndex, bind, Except.bind, hfound]
  cases hv with
  | text cs =>
    rw [List.length_map] at hi
    rw [get, String.toList_ofList, hitem _ hi, List.getElem_map]
    rfl
  | bytes a ha =>
    rw [List.length_map] at hi
    rw [get, hitem _ hi, List.getElem_map]
    rfl
  | array a ha | frozenArray a ha => exact hitem _ hi

theorem len_eq (hv : v.Lists h k xs) (limits : Limits) :
    Builtin.call limits .len [v] h = .ok (.int xs.length.toInt64) h := by
  cases hv with
  | text cs =>
    rw [List.length_map, ← String.length_ofList]
    rfl
  | bytes a ha =>
    rw [List.length_map]
    rfl
  | array a ha | frozenArray a ha => rfl

/-- A slice fails or lists what is between its bounds. -/
theorem slice_eq (hv : v.Lists h k xs) (low high : Option Int64) {lo hi : Nat} (hlo : cut xs.length 0 low = lo)
    (hhi : cut xs.length xs.length high = hi) :
    hi < lo ∧ v.slice (bound low) (bound high) h = .error (.sliceBounds lo hi) h ∨
    lo ≤ hi ∧ ∃ w h', v.slice (bound low) (bound high) h = .ok w h' ∧
      w.Lists h' k ((xs.drop lo).take (hi - lo)) ∧ h.KeepsBut (fun _ => False) h' ∧ (k ≠ .text → ¬ h.Holds w) := by
  have hbounds : ∀ f : Nat × Nat → HeapM Value,
      (HeapM.ofExcept (sliceBounds xs.length (bound low) (bound high)) >>= f) h =
        if hi < lo then .error (.sliceBounds lo hi) h else f (lo, hi) h := by
    intro f
    rw [sliceBounds_bound, hlo, hhi]
    split <;> rfl
  cases hv with
  | text cs =>
    have hslice := hbounds fun r => pure (.string (String.ofList ((cs.drop r.1).take (r.2 - r.1))))
    rw [List.length_map] at hslice
    rw [slice, String.toList_ofList]
    split at hslice
    · next hlt => exact .inl ⟨hlt, hslice⟩
    · next hle =>
      refine .inr ⟨Nat.le_of_not_lt hle, _, _, hslice, ?_, .refl h, fun hk => absurd rfl hk⟩
      rw [← List.map_drop, ← List.map_take]
      exact .text _
  | bytes a ha =>
    have hslice := hbounds fun r => HeapM.bytes ((h.buffer a).extract r.1 r.2)
    rw [List.length_map] at hslice
    split at hslice
    · next hlt => exact .inl ⟨hlt, hslice⟩
    · next hle =>
      obtain ⟨w, h', hw, hlists, hkeep, hnew⟩ := newBytes h ((h.buffer a).extract lo hi)
      refine .inr ⟨Nat.le_of_not_lt hle, w, h', hslice.trans hw, ?_, hkeep, fun _ => hnew⟩
      rwa [Array.toList_extract, List.extract, List.map_take, List.map_drop] at hlists
  | array a ha | frozenArray a ha =>
    have hslice := hbounds fun r => HeapM.array ((h.array a).extract r.1 r.2)
    split at hslice
    · next hlt => exact .inl ⟨hlt, hslice⟩
    · next hle =>
      obtain ⟨w, h', hw, hlists, hkeep, hnew⟩ := newArray h ((h.array a).extract lo hi)
      refine .inr ⟨Nat.le_of_not_lt hle, w, h', hslice.trans hw, ?_, hkeep, fun _ => hnew⟩
      rwa [Array.toList_extract, List.extract] at hlists

/-- A slice with its bounds in order. -/
theorem slice_of_le (hv : v.Lists h k xs) (low high : Option Int64) {lo hi : Nat} (hlo : cut xs.length 0 low = lo)
    (hhi : cut xs.length xs.length high = hi) (hle : lo ≤ hi) :
    ∃ w h', v.slice (bound low) (bound high) h = .ok w h' ∧ w.Lists h' k ((xs.drop lo).take (hi - lo)) ∧
      h.KeepsBut (fun _ => False) h' ∧ (k ≠ .text → ¬ h.Holds w) :=
  (hv.slice_eq low high hlo hhi).elim (fun hlt => absurd hlt.1 (Nat.not_lt_of_le hle)) And.right

theorem binary_of_join {limits : Limits} {y : Value} (hatoms : Arithmetic.onAtoms limits .add v w = .ok none)
    (hjoin : join limits v w h = .ok (some y) h') : binary limits .add v w h = .ok y h' := by
  rw [binary, bind_eq (show HeapM.ofExcept _ h = .ok none h by rw [hatoms]; rfl)]
  exact bind_eq hjoin

/-- Sequences of one kind are joined as long as the limits admit it. -/
theorem add_eq (hv : v.Lists h k xs) (hw : w.Lists h k ys) (limits : Limits)
    (hfits : k.size (xs ++ ys) ≤ k.ceiling limits) :
    ∃ y h', binary limits .add v w h = .ok y h' ∧ y.Lists h' k (xs ++ ys) := by
  have hofOk : ∀ {r : Except Fault Unit}, r = .ok () → HeapM.ofExcept r h = .ok () h := by
    rintro - rfl
    rfl
  cases hv with
  | text cs =>
    obtain ⟨ds⟩ := hw
    rw [Kind.size, ← List.map_append, List.filterMap_map] at hfits
    have hcheck : limits.checkString ((String.ofList cs).utf8ByteSize + (String.ofList ds).utf8ByteSize) = .ok () :=
      if_neg (by simpa [Kind.ceiling, Function.comp_def, toChar?, String.utf8ByteSize_append] using hfits)
    refine ⟨.string (String.ofList cs ++ String.ofList ds), h, ?_, ?_⟩
    · have hatoms : Arithmetic.onAtoms limits .add (.string (String.ofList cs)) (.string (String.ofList ds)) =
          (limits.checkString _ >>= fun _ => .ok (some (.string (String.ofList cs ++ String.ofList ds)))) := rfl
      rw [hcheck] at hatoms
      rw [binary, hatoms]
      rfl
    · rw [← String.ofList_append, ← List.map_append]
      exact .text _
  | bytes a ha =>
    cases hw with
    | bytes b hb =>
      obtain ⟨y, h', hy, hlists, -, -⟩ := newBytes h (h.buffer a ++ h.buffer b)
      have hcheck : limits.checkBytes ((h.buffer a).size + (h.buffer b).size) = .ok () :=
        if_neg (by simpa [Kind.size, Kind.ceiling] using hfits)
      refine ⟨y, h', binary_of_join rfl ((bind_eq (hofOk hcheck)).trans (bind_eq hy)), ?_⟩
      rwa [Array.toList_append, List.map_append] at hlists
  | array a ha | frozenArray a ha =>
    cases hw with
    | array b hb | frozenArray b hb =>
      obtain ⟨y, h', hy, hlists, -, -⟩ := newArray h (h.array a ++ h.array b)
      have hcheck : limits.checkArray ((h.array a).size + (h.array b).size) = .ok () :=
        if_neg (by simpa [Kind.size, Kind.ceiling] using hfits)
      refine ⟨y, h', binary_of_join rfl ((bind_eq (hofOk hcheck)).trans (bind_eq hy)), ?_⟩
      rwa [Array.toList_append] at hlists

/-- Slices, items, lengths and sums of a sequence fit together: a slice fails iff its bounds are inverted, else it is
a new sequence of what is between them; the two parts of a sequence make it up again; and a slice of a slice is a
slice. -/
theorem parts (hv : v.Lists h k xs) (hsize : xs.length < 2 ^ 63) (limits : Limits) :
    (∀ low high, let lo := cut xs.length 0 low
      let hi := cut xs.length xs.length high
      ((∃ fault h', v.slice (bound low) (bound high) h = .error fault h') ↔ hi < lo) ∧
      (lo ≤ hi → ∃ w h', v.slice (bound low) (bound high) h = .ok w h' ∧ (k ≠ .text → ¬ h.Holds w) ∧
        Builtin.call limits .len [w] h' = .ok (.int (hi - lo).toInt64) h' ∧
        ∀ i < hi - lo, ∃ x, w.get h' (.int i.toInt64) = .ok x ∧ v.get h (.int (lo + i).toInt64) = .ok x)) ∧
    (∀ i ≤ xs.length, k.size xs ≤ k.ceiling limits → ∃ y h', (do
      let front ← v.slice .undefined (.int i.toInt64)
      let back ← v.slice (.int i.toInt64) .undefined
      binary limits .add front back) h = .ok y h' ∧ y.Lists h' k xs) ∧
    ∀ a b c d, let lo := cut xs.length 0 a
      let n := cut xs.length xs.length b - lo
      lo ≤ cut xs.length xs.length b → cut n 0 c ≤ cut n n d → ∃ w h1 u h2 ys,
        (v.slice (bound a) (bound b) >>= fun s => s.slice (bound c) (bound d)) h = .ok w h1 ∧ w.Lists h1 k ys ∧
        v.slice (.int (lo + cut n 0 c).toInt64) (.int (lo + cut n n d).toInt64) h = .ok u h2 ∧ u.Lists h2 k ys := by
  refine ⟨fun low high => ?_, fun i hi hfits => ?_, fun a b c d => ?_⟩
  · intro lo hi
    have hhi : hi ≤ xs.length := cut_le (Nat.le_refl _) high
    rcases hv.slice_eq low high (show _ = lo from rfl) (show _ = hi from rfl) with
      ⟨hlt, hfail⟩ | ⟨hle, w, h', hw, hlists, -, hnew⟩
    · exact ⟨⟨fun _ => hlt, fun _ => ⟨_, _, hfail⟩⟩, fun hle => absurd hlt (Nat.not_lt_of_le hle)⟩
    · have hlength : ((xs.drop lo).take (hi - lo)).length = hi - lo := by
        rw [List.length_take, List.length_drop]
        omega
      refine ⟨⟨fun hfail => ?_, fun hlt => absurd hle (Nat.not_le_of_lt hlt)⟩,
        fun _ => ⟨w, h', hw, hnew, hlength ▸ hlists.len_eq limits, fun i hi => ?_⟩⟩
      · obtain ⟨fault, h'', hfail⟩ := hfail
        cases hw.symm.trans hfail
      · refine ⟨_, hlists.get_eq (hlength.symm ▸ hi) (by omega), ?_⟩
        rw [hv.get_eq (by omega) hsize]
        simp
  · obtain ⟨front, h1, hfront, hfirst, hkeep, -⟩ :=
      hv.slice_of_le none (some i.toInt64) (show _ = 0 from rfl) (cut_toInt64 hi hsize _) (Nat.zero_le i)
    obtain ⟨back, h2, hback, hsecond, hkeep', -⟩ :=
      (hv.keep hkeep).slice_of_le (some i.toInt64) none (cut_toInt64 hi hsize _) (show _ = xs.length from rfl) hi
    have hwhole : xs.take i ++ xs.drop i = xs := List.take_append_drop i xs
    rw [List.drop_zero, Nat.sub_zero] at hfirst
    rw [List.take_of_length_le (by simp)] at hsecond
    obtain ⟨y, h', hy, hlists⟩ := (hfirst.keep hkeep').add_eq hsecond limits (hwhole.symm ▸ hfits)
    exact ⟨y, h', (bind_eq hfront).trans ((bind_eq hback).trans hy), hwhole ▸ hlists⟩
  · intro lo n hab hcd
    have hb : cut xs.length xs.length b ≤ xs.length := cut_le (Nat.le_refl _) b
    have hd : cut n n d ≤ n := cut_le (Nat.le_refl _) d
    obtain ⟨s, h0, hs, hfirst, -, -⟩ := hv.slice_of_le a b rfl rfl hab
    have hlength : ((xs.drop lo).take n).length = n := by
      rw [List.length_take, List.length_drop]
      omega
    obtain ⟨w, h1, hw, hsecond, -, -⟩ := hfirst.slice_of_le c d (by rw [hlength]) (by rw [hlength]) hcd
    obtain ⟨u, h2, hu, hdirect, -, -⟩ := hv.slice_of_le (some (lo + cut n 0 c).toInt64)
      (some (lo + cut n n d).toInt64) (cut_toInt64 (by omega) hsize _) (cut_toInt64 (by omega) hsize _) (by omega)
    refine ⟨w, h1, u, h2, _, (bind_eq hs).trans hw, hsecond, hu, ?_⟩
    convert hdirect using 1
    rw [List.drop_take, List.drop_drop, List.take_take]
    congr 1
    omega

/-- The characters of a text have different numbers of bytes. -/
theorem parts_word : ∃ y h', (do
    let front ← (Value.string (String.ofList ['n', 'é'])).slice .undefined (.int (Nat.toInt64 1))
    let back ← (Value.string (String.ofList ['n', 'é'])).slice (.int (Nat.toInt64 1)) .undefined
    binary { maxString := 3 } .add front back) {} = .ok y h' ∧ y.Lists h' .text [.char 'n', .char 'é'] :=
  ((Lists.text ['n', 'é']).parts (by decide) { maxString := 3 }).2.1 1 (by decide) (by decide)

end Lists

end ScriptEngine.Value
