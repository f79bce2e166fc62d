import ScriptEngine.Proofs.Machine.Laws
import ScriptEngine.Proofs.Value.Reach
/-!
# Ceilings on sizes

The limits of a run are ceilings on the sizes of texts, bytes and arrays. Whatever a program does, bytes
keep to theirs, and arrays do too unless the arguments of a call are collected in one, which only the stack
limits. Texts keep to theirs if names of types do and no keys of maps are read back, since keys are
written without regard to the ceiling (`Exec.Reached.respects`). An array of collected arguments is above
the ceiling in `Exec.exceeds_gathering`.
-/

namespace ScriptEngine

open Machine Setting

variable {f : Function} {h : Heap} {v : Value}

/-! ### Sizes -/

namespace Value

/-- A text has at most `n` bytes. -/
def TextWithin (n : Nat) : Value → Prop
  | .string s => s.utf8ByteSize ≤ n
  | _ => True

/-- Bytes are at most `n`. -/
def BytesWithin (h : Heap) (n : Nat) : Value → Prop
  | .bytes a => (h.buffer a).size ≤ n
  | _ => True

/-- An array, frozen or not, has at most `n` items. -/
def ArrayWithin (h : Heap) (n : Nat) : Value → Prop
  | .array a | .frozenArray a => (h.array a).size ≤ n
  | _ => True

/-- A value respects the ceilings. -/
structure Respects (limits : Limits) (h : Heap) (v : Value) : Prop where
  text : v.TextWithin limits.maxString
  bytes : v.BytesWithin h limits.maxBytes
  array : v.ArrayWithin h limits.maxArray

/-- The size of the longest name of a type that is no function of the host. -/
def longestTypeName : Nat := 35

theorem size_typeName_le (hv : ∀ name, v ≠ .native (.host name)) : v.typeName.utf8ByteSize ≤ longestTypeName := by
  cases v with
  | native f =>
    cases f with
    | builtin b => cases b <;> decide +kernel
    | host name => exact absurd rfl (hv name)
  | iterator kind a => cases kind <;> exact Nat.le_of_ble_eq_true rfl
  | _ => exact Nat.le_of_ble_eq_true rfl

end Value

/-- A value that a machine holds: on its stack, in a global, in a cell, or as an active function. -/
inductive Machine.Holds (m : Machine) : Value → Prop where
  | stack {v : Value} : v ∈ m.stack → Holds m v
  | global {v : Value} : v ∈ m.globals → Holds m v
  | cell {a : Addr} : some a ∈ m.cells → Holds m (m.heap.cell a)
  | capture {a : Addr} : a ∈ m.captures → Holds m (m.heap.cell a)
  | frame {f : Frame} : f ∈ m.frames → Holds m (.function f.func)

/-- What a program and some globals have at the start. -/
def Program.Provides (p : Program) (globals : Array Value) (v : Value) : Prop :=
  v = .function p.main ∨ v ∈ p.constants ∨ v ∈ globals

/-- Wherever the code of a function is entered, no key is read from an iterator. -/
def Function.ReadsNoKeys (f : Function) : Prop := ∀ n i, f.instructionAt n = .ok i → i.op ≠ .iterKey

/-- It is enough to look at the offsets within the code. -/
theorem Function.readsNoKeys_of_all
    (h : (List.range f.code.size).all (fun n => (f.instructionAt n).toOption.all (·.op != .iterKey)) = true) :
    f.ReadsNoKeys := by
  intro n i hi
  rcases Nat.lt_or_ge n f.code.size with hn | hn
  · have hall := List.all_eq_true.1 h n (List.mem_range.2 hn)
    simpa [hi, Except.toOption] using hall
  · rw [Function.instructionAt, Array.getElem?_eq_none hn] at hi
    cases hi

section Ceilings

variable (s : Setting) (globals : Array Value) (heap : Heap)

/-- All functions that are there at the start, at any depth, have a property. -/
def Setting.EachFunction (P : Function → Prop) : Prop :=
  ∀ f, ValueRule.Meets heap (s.program.Provides globals) (.function f) → P f

/-- No function collects arguments. -/
def Setting.CollectsNothing : Prop := s.EachFunction globals heap fun f => f.variadic = false

/-- The names of types are below the ceiling of texts, and no function reads keys. -/
def Setting.KeepsTexts : Prop :=
  Value.longestTypeName ≤ s.limits.maxString ∧ s.EachFunction globals heap Function.ReadsNoKeys

/-- The rule of the ceilings. -/
def Setting.ceilings : ValueRule where
  string t := s.KeepsTexts globals heap → t.utf8ByteSize ≤ s.limits.maxString
  bufferSize n := n ≤ s.limits.maxBytes
  arraySize n := n ≤ max s.limits.maxArray s.config.stackSize ∧ (s.CollectsNothing globals heap → n ≤ s.limits.maxArray)
  function f := (s.KeepsTexts globals heap → f.ReadsNoKeys) ∧ (s.CollectsNothing globals heap → f.variadic = false)
  code f := (s.KeepsTexts globals heap → f.ReadsNoKeys) ∧ (s.CollectsNothing globals heap → f.variadic = false)
  native f := ∃ b, f = .builtin b
  active _ hf := hf

/-- The law of the ceilings. -/
abbrev Setting.ceilingLaw : ValueLaw := (s.ceilings globals heap).law heap (s.program.Provides globals)

variable {s globals heap}

/-- The characters of a part of a text take no more bytes than those of the text. -/
theorem size_le_of_sublist {a b : String} (h : a.toList.Sublist b.toList) : a.utf8ByteSize ≤ b.utf8ByteSize := by
  have hsize : ∀ t : String, t.utf8ByteSize = Text.sizeOf t.toList := fun t => by
    rw [← Text.utf8ByteSize_ofList, String.ofList_toList]
  rw [hsize, hsize]
  exact (h.map Char.utf8Size).sum_le_sum fun _ _ => Nat.zero_le _

namespace Setting

theorem permits_ceilings : (s.ceilingLaw globals heap).Permits s.limits where
  string t ht _ := ht
  bytes n hn := hn
  array n hn := ⟨Nat.le_trans hn (Nat.le_max_left _ _), fun _ => hn⟩
  substring a b ha hsub htexts := Nat.le_trans (size_le_of_sublist hsub) (ha htexts)
  fewerBytes m n hn hmn := Nat.le_trans hmn hn
  fewerItems m n hn hmn := ⟨Nat.le_trans hmn hn.1, fun h => Nat.le_trans hmn (hn.2 h)⟩
  typeName v hv htexts := by
    refine Nat.le_trans (Value.size_typeName_le fun name hname => ?_) htexts.1
    subst hname
    obtain ⟨b, hb⟩ := hv
    cases hb

theorem governs_ceilings : (s.ceilingLaw globals heap).Governs s where
  permits := permits_ceilings
  variadic f hf hvariadic n hn := by
    refine ⟨Nat.le_trans hn (Nat.le_max_right _ _), fun hnothing => ?_⟩
    rw [hf.1.2 hnothing] at hvariadic
    cases hvariadic
  host name args hname := by
    obtain ⟨b, hb⟩ := hname
    cases hb

end Setting

section Start

variable (hstart : ∀ v, ValueRule.Meets heap (s.program.Provides globals) v → v.Respects s.limits heap)
  (hnative : ∀ f, ValueRule.Meets heap (s.program.Provides globals) (.native f) → ∃ b, f = .builtin b)

include hstart hnative

theorem Value.passes_ceilings (hv : ValueRule.Meets heap (s.program.Provides globals) v) :
    v.Passes (s.ceilings globals heap) heap := by
  have hrespects := hstart v hv
  cases v with
  | string t => exact fun _ => hrespects.text
  | bytes a => exact hrespects.bytes
  | array a | frozenArray a =>
    exact ⟨Nat.le_trans hrespects.array (Nat.le_max_left _ _), fun _ => hrespects.array⟩
  | native f => exact hnative f hv
  | function f => exact ⟨fun htexts => htexts.2 f hv, fun hnothing => hnothing f hv⟩
  | _ => exact trivial

theorem Value.obeys_ceilings (hv : s.program.Provides globals v) : v.Obeys (s.ceilingLaw globals heap) :=
  ValueRule.obeys_of_meets (fun _ hw => passes_ceilings hstart hnative hw) ⟨v, hv, .refl⟩

theorem Setting.follows_ceilings : (s.ceilingLaw globals heap).Follows s.program := by
  intro f hf n i hi
  obtain ⟨offset, op, operands⟩ := i
  cases op with
  | const => exact fun v hv => Value.obeys_ceilings hstart hnative (.inr (.inl (Array.mem_of_getElem? hv)))
  | closure =>
    intro g hg id captured _ hcaptured
    have hprovided : s.program.Provides globals (.function g) :=
      .inr (.inl (Array.mem_of_getElem? (Program.constant_of_functionAt? hg)))
    exact ⟨(Value.obeys_ceilings hstart hnative hprovided).1, hcaptured⟩
  | getBuiltin => exact fun b _ => ⟨b, rfl⟩
  | iterKey => exact fun t htexts => absurd rfl (hf.1.1 htexts n _ hi)
  | _ => exact trivial

/-- Nothing has happened yet, and what is there respects the ceilings. -/
theorem Machine.orderly_new (token : CancelToken) :
    (new s globals token heap).Orderly s (s.ceilingLaw globals heap) where
  heap := ValueRule.obeys_heap (fun _ hw => Value.passes_ceilings hstart hnative hw) (Nat.zero_le _)
    ⟨Nat.zero_le _, fun _ => Nat.zero_le _⟩
  globals v hv := by
    rcases Exec.mem_of_mem_fillUp hv with hv | rfl
    · exact Value.obeys_ceilings hstart hnative (.inr (.inr hv))
    · exact trivial
  stack := by simp [new]
  cells := by simp [new]
  captures := by simp [new]
  frames := by simp [new]
  room := Nat.zero_le _
  places := Nat.zero_le _
  depth := Nat.zero_le _

end Start

/-- What a machine holds obeys a law if the machine does. -/
theorem Machine.Holds.obeys {law : ValueLaw} {m : Machine} (hv : m.Holds v) (hm : m.Obeys s law)
    (hcode : ∀ f, law.code f → law.function f) : v.Obeys law := by
  cases hv with
  | stack hv => exact hm.stack v hv
  | global hv => exact hm.globals v hv
  | cell ha => exact hm.heap.cell _ (hm.cells _ ha)
  | capture ha => exact hm.heap.cell _ (hm.captures _ ha)
  | frame hf => exact hcode _ (hm.frames _ hf)

end Ceilings

/-- In every state that a run comes to, bytes keep to their ceiling, arrays are no larger than the ceiling
or the stack, and they keep to the ceiling if no function collects arguments; texts keep to theirs if the
names of types do and no keys are read. -/
theorem Exec.Reached.respects {s : Setting} {globals : Array Value} {heap : Heap} {token : CancelToken} {x : Station}
    (hstart : ∀ v, ValueRule.Meets heap (s.program.Provides globals) v → v.Respects s.limits heap)
    (hnative : ∀ f, ValueRule.Meets heap (s.program.Provides globals) (.native f) → ∃ b, f = .builtin b)
    (hreached : Reached s (fun _ _ => False) (new s globals token heap) x) {v w : Value}
    (hv : x.machine.Holds v) (hw : x.machine.heap.Reaches v w) :
    w.BytesWithin x.machine.heap s.limits.maxBytes ∧
      w.ArrayWithin x.machine.heap (max s.limits.maxArray s.config.stackSize) ∧
      (s.CollectsNothing globals heap → w.ArrayWithin x.machine.heap s.limits.maxArray) ∧
      (s.KeepsTexts globals heap → w.TextWithin s.limits.maxString) := by
  have hmain := Value.obeys_ceilings hstart hnative (.inl rfl)
  have hm := (hreached.orderly governs_ceilings (follows_ceilings hstart hnative) hmain
    (fun _ _ hoffer => hoffer.elim) (orderly_new hstart hnative token)).1.toObeys
  have hpasses := ((hv.obeys hm fun _ => id).reaches hm.heap hw).passes hm.heap
  cases w with
  | string t => exact ⟨trivial, trivial, fun _ => trivial, hpasses⟩
  | bytes a => exact ⟨hpasses, trivial, fun _ => trivial, fun _ => trivial⟩
  | array a | frozenArray a => exact ⟨trivial, hpasses.1, hpasses.2, fun _ => trivial⟩
  | _ => exact ⟨trivial, trivial, fun _ => trivial, fun _ => trivial⟩

/-! ### A text within its ceiling, and an array above it -/

/-- What values without parts reach. -/
theorem ValueRule.Meets.of_flat {roots : Value → Prop} (hv : Meets h roots v)
    (hflat : ∀ root, roots root → ∀ w, ¬ h.Part root w) : roots v := by
  obtain ⟨root, hroot, hreaches⟩ := hv
  rcases Relation.ReflTransGen.cases_head hreaches with rfl | ⟨w, hpart, -⟩
  · exact hroot
  · exact absurd hpart (hflat root hroot w)

theorem Heap.not_part_function (hf : f.captured = #[]) (w : Value) : ¬ h.Part (.function f) w := by
  intro hpart
  cases hpart with
  | captured hc =>
    rw [hf] at hc
    simp at hc

/-- Puts two texts together, with room for the names of all types. -/
def Setting.spelling : Setting where
  program := {
    main := { code := #[Opcode.const.byte, 0, 0, Opcode.const.byte, 0, 1, Opcode.binary.byte,
      Operator.add.code.toUInt8, Opcode.setGlobal.byte, 0, 0, Opcode.suspend.byte] }
    constants := #[.string "ab", .string "cde"] }
  limits := { maxString := 40 }
  config := { globals := 1 }

theorem Setting.flat_spelling : ∀ v, spelling.program.Provides #[] v → ∀ w, ¬ Heap.Part {} v w := by
  rintro v (rfl | hv | hv) w hpart
  · exact Heap.not_part_function rfl w hpart
  · rcases (show v = .string "ab" ∨ v = .string "cde" by simpa [spelling] using hv) with rfl | rfl <;> cases hpart
  · simp at hv

/-- Whether a value is a given text. -/
def Value.isText (t : String) : Value → Bool
  | .string s => s == t
  | _ => false

/-- The run ends with a text of five bytes. -/
theorem Exec.respects_spelling : ∃ x, Reached .spelling (fun _ _ => False) (new .spelling #[] {} {}) x ∧
    x.machine.Holds (.string "abcde") ∧ (Value.string "abcde").TextWithin 40 := by
  have hheld : (machineAfter (run .spelling 6 (new .spelling #[] {} {}))).globals.any
      (Value.isText "abcde") = true := by decide +kernel
  obtain ⟨v, hv, htext⟩ := Array.any_eq_true'.1 hheld
  obtain rfl : v = .string "abcde" := by
    cases v with
    | string s => rw [show s = "abcde" from by simpa [Value.isText] using htext]
    | _ => cases htext
  have hkeeps : spelling.KeepsTexts #[] {} := by
    refine ⟨by decide, fun f hf n i hi => ?_⟩
    obtain rfl : f = spelling.program.main := by
      rcases hf.of_flat flat_spelling with hf | hf | hf
      · exact Value.function.inj hf
      · simp [spelling] at hf
      · simp at hf
    exact Function.readsNoKeys_of_all (by decide +kernel) n i hi
  have hreached : Reached .spelling (fun _ _ => False) (new .spelling #[] {} {})
      ⟨.idle, machineAfter (run .spelling 6 (new .spelling #[] {} {}))⟩ := .single (.ran _ 6)
  refine ⟨_, hreached, .global hv, ?_⟩
  refine (hreached.respects (fun w hw => ?_) (fun f hf => ?_) (.global hv) .refl).2.2.2 hkeeps
  · rcases hw.of_flat flat_spelling with rfl | hw | hw
    · exact ⟨trivial, trivial, trivial⟩
    · rcases (show w = .string "ab" ∨ w = .string "cde" by simpa [spelling] using hw) with rfl | rfl <;>
        exact ⟨Nat.le_of_ble_eq_true rfl, trivial, trivial⟩
    · simp at hw
  · rcases hf.of_flat flat_spelling with hf | hf | hf
    · cases hf
    · simp [spelling] at hf
    · simp at hf

/-- Keeps the array of the arguments of a call, in a run in which arrays of one item are the largest. -/
def Setting.gathering : Setting where
  program := {
    main := { code := #[Opcode.const.byte, 0, 0, Opcode.pushTrue.byte, Opcode.pushTrue.byte, Opcode.call.byte, 2, 0,
      Opcode.setGlobal.byte, 0, 0, Opcode.suspend.byte] }
    constants := #[.function {
      id := 1, code := #[Opcode.getLocal.byte, 0, Opcode.ret.byte, 1], locals := 1, parameters := 1, variadic := true }] }
  limits := { maxArray := 1 }
  config := { globals := 1 }

/-- Whether a value is an array of `n` items. -/
def Value.isArrayOf (h : Heap) (n : Nat) : Value → Bool
  | .array a => (h.array a).size == n
  | _ => false

theorem Setting.flat_gathering : ∀ v, gathering.program.Provides #[] v → ∀ w, ¬ Heap.Part {} v w := by
  rintro v (rfl | hv | hv) w hpart
  · exact Heap.not_part_function rfl w hpart
  · obtain rfl := Array.mem_singleton.1 hv
    exact Heap.not_part_function rfl w hpart
  · simp at hv

/-- All that is there at the start respects the ceilings, and the run builds an array of two items. -/
theorem Exec.exceeds_gathering :
    (∀ v, ValueRule.Meets {} (gathering.program.Provides #[]) v → v.Respects gathering.limits {}) ∧
      ∃ x, Reached .gathering (fun _ _ => False) (new .gathering #[] {} {}) x ∧
        ∃ v, x.machine.Holds v ∧ ¬ v.Respects gathering.limits x.machine.heap := by
  refine ⟨fun v hv => ?_, ⟨.idle, _⟩, .single (.ran _ 9), ?_⟩
  · rcases hv.of_flat flat_gathering with rfl | hv | hv
    · exact ⟨trivial, trivial, trivial⟩
    · obtain rfl := Array.mem_singleton.1 hv
      exact ⟨trivial, trivial, trivial⟩
    · simp at hv
  · have hheld : (machineAfter (run .gathering 9 (new .gathering #[] {} {}))).globals.any
        (Value.isArrayOf (machineAfter (run .gathering 9 (new .gathering #[] {} {}))).heap 2) = true := by
      decide +kernel
    obtain ⟨v, hv, harray⟩ := Array.any_eq_true'.1 hheld
    refine ⟨v, .global hv, fun hrespects => ?_⟩
    cases v with
    | array a =>
      have hsize := hrespects.array
      rw [Value.ArrayWithin, show (Heap.array _ a).size = 2 from by simpa [Value.isArrayOf] using harray] at hsize
      exact absurd hsize (by decide)
    | _ => cases harray

end ScriptEngine
