import ScriptEngine.Proofs.Builtins.Range
import ScriptEngine.Proofs.Value.Copies
/-!
# Builtin functions on corresponding arguments

A builtin function does the same to arguments that correspond (`Builtin.agree_call`): it gives results that
correspond or fails for the same reason, unless it is excused for failing at a limit. For a format this
means that the budgets, which are what the limit leaves to the text so far, only ever make it fail.
-/

namespace ScriptEngine

variable {l1 l2 : Limits} {args args' : List Value} {m n : Nat} {τ : Tie} {h1 h2 : Heap} {v w : Value}

/-! ### Formats -/

namespace Format

theorem agree_hexWithin (hb : τ.Bounds .stringLimit m n) (upper : Bool) (bytes : List UInt8) :
    Agree τ Eq (hexWithin m upper bytes) (hexWithin n upper bytes) := agree_bound rfl hb fun _ => .ok rfl

variable (hh : h1.Tied τ h2)
include hh

theorem agree_render (verb : Char) (spec : Spec) (hb : τ.Bounds .stringLimit m n)
    (hv : v.Tied τ w) : Agree τ Eq (render h1 verb spec v m) (render h2 verb spec w n) := by
  have htext := (Value.agree_plainTextWithin hh hb hv).bind fun s t hst =>
    .ok (congrArg (fun s => some (cut spec.precision s)) hst.1)
  fun_cases render h1 verb spec v m
  case case3 hfloat hint =>
    cases hv with
    | float v => exact (hfloat v rfl).elim
    | int v => exact (hint v rfl).elim
    | _ => exact htext
  case case4 => cases hv <;> exact htext
  case case16 | case17 =>
    cases hv
    exact agree_hexWithin hb ..
  case case18 | case19 =>
    cases hv
    simp only [render, hh.buffer]
    exact agree_hexWithin hb ..
  case case26 =>
    fun_cases render h2 verb spec w n
    case case26 => exact .ok rfl
    case case3 | case4 => simp_all
    all_goals
      cases hv
      simp_all
  all_goals
    cases hv
    exact .ok rfl

theorem agree_typed (hb : τ.Bounds .stringLimit m n) (hv : v.Tied τ w) :
    Agree τ Eq (typed h1 m v) (typed h2 n w) := by
  rw [typed, typed, hv.typeName_eq]
  exact (Value.agree_plainTextWithin hh hb hv).bind fun s t hst => .ok (by rw [hst.1])

variable (hl : l1.Tied τ l2)
include hl

theorem agree_addDirective (spec : Spec) (verb : Char)
    (hv : v.Tied τ w) (out : String) :
    Agree τ Eq (addDirective h1 l1 spec verb v out) (addDirective h2 l2 spec verb w out) := by
  have hbudget := hl.string.sub out.utf8ByteSize
  refine (hl.checkString _).bind fun _ _ _ => (agree_render hh verb spec hbudget hv).bind_eq fun body => ?_
  cases body with
  | some body => exact (hl.checkString _).bind fun _ _ _ => .ok rfl
  | none => exact (agree_typed hh hbudget hv).bind_eq fun s => (hl.checkString _).bind fun _ _ _ => .ok rfl

theorem agree_addPieces (pieces : List Piece)
    (hargs : List.Forall₂ (Value.Tied τ) args args') (out : String) :
    Agree τ (fun r r' => r'.1 = r.1 ∧ List.Forall₂ (Value.Tied τ) r.2 r'.2) (addPieces h1 l1 pieces args out)
      (addPieces h2 l2 pieces args' out) := by
  induction pieces generalizing args args' out with
  | nil => exact .ok ⟨rfl, hargs⟩
  | cons piece pieces ih =>
    cases piece with
    | literal c | noVerb => exact ih hargs _
    | directive spec verb =>
      cases hargs with
      | nil => exact ih .nil _
      | cons hv hargs =>
        have hdirective := agree_addDirective hh hl spec verb hv out
        simp only [addPieces]
        generalize addDirective h1 l1 _ _ _ _ = r, addDirective h2 l2 _ _ _ _ = r' at hdirective
        cases hdirective with
        | ok h =>
          subst h
          exact ih hargs _
        | error hmild => exact .error hmild
        | excused h => exact .excused h

theorem agree_addExtra (started : Bool)
    (hargs : List.Forall₂ (Value.Tied τ) args args') (out : String) :
    Agree τ Eq (addExtra h1 l1 started args out) (addExtra h2 l2 started args' out) := by
  induction hargs generalizing started out with
  | nil => exact .ok rfl
  | cons hv _ ih =>
    simp only [addExtra]
    generalize (if started then out ++ ", " else out) = out
    have htyped := agree_typed hh (hl.string.sub out.utf8ByteSize) hv
    generalize typed h1 _ _ = r, typed h2 _ _ = r' at htyped
    cases htyped with
    | ok h =>
      subst h
      exact ih true _
    | error hmild => exact .error hmild
    | excused h => exact .excused h

/-- A text that fits is what a format gives. -/
theorem agree_format (fmt : String)
    (hargs : List.Forall₂ (Value.Tied τ) args args') :
    Agree τ (fun s t => s = t ∧ s.utf8ByteSize ≤ l1.maxString) (format h1 l1 fmt args) (format h2 l2 fmt args') := by
  refine (agree_addPieces hh hl (parse fmt) hargs "").bind fun r r' hr => ?_
  obtain ⟨out, left⟩ := r
  obtain ⟨out', left'⟩ := r'
  obtain ⟨hout : out' = out, hleft : List.Forall₂ (Value.Tied τ) left left'⟩ := hr
  subst hout
  cases hleft with
  | nil => exact (hl.checkString _).bind fun _ _ hfits => .ok ⟨rfl, hfits⟩
  | cons hv hleft =>
    refine (agree_addExtra hh hl false (.cons hv hleft) _).bind_eq fun out => ?_
    exact (hl.checkString _).bind fun _ _ hfits => .ok ⟨rfl, hfits⟩

end Format

/-! ### The functions themselves -/

namespace Builtin

variable (hargs : List.Forall₂ (Value.Tied τ) args args')

theorem holds_eq (b : Builtin) (hv : v.Tied τ w) : holds b w = holds b v := by
  cases hv <;> cases b <;> rfl

theorem agree_lengthOf (hh : h1.Tied τ h2) (hv : v.Tied τ w) : Agree τ Eq (lengthOf h1 v) (lengthOf h2 w) := by
  have hname := hv.typeName_eq
  cases hv with
  | array ha | frozenArray ha => exact .ok (hh.array ha).size_eq
  | map ha | frozenMap ha => exact .ok (hh.map ha).size_eq
  | string => exact .ok rfl
  | bytes => exact .ok (congrArg Array.size (hh.buffer _)).symm
  | _ =>
    simp only [lengthOf, unsuited, hname]
    exact .error rfl

include hargs

theorem argument_tied (i : Nat) : (argument args i).Tied τ (argument args' i) := by
  induction hargs generalizing i with
  | nil => exact .undefined
  | cons h _ ih =>
    cases i with
    | zero => exact h
    | succ i => exact ih i

theorem agree_exactly (n : Nat) : Agree τ Eq (exactly n args) (exactly n args') := by
  rw [exactly, hargs.length_eq]
  exact .ite (.ok rfl) (.error rfl)

theorem agree_between (low high : Nat) : Agree τ Eq (between low high args) (between low high args') := by
  rw [between, hargs.length_eq]
  exact .ite (.ok rfl) (.error rfl)

theorem agree_atLeast (n : Nat) : Agree τ (fun _ _ => n ≤ args.length) (atLeast n args) (atLeast n args') := by
  rw [atLeast, atLeast, hargs.length_eq]
  split
  · next hsome => exact .ok hsome
  · exact .error rfl

theorem agree_intArgument (i : Nat) : Agree τ Eq (intArgument args i) (intArgument args' i) := by
  have harg := argument_tied hargs i
  have hname := harg.typeName_eq
  unfold intArgument
  generalize argument args i = x, argument args' i = y at harg hname
  cases harg with
  | int v => exact .ok rfl
  | _ =>
    simp only [unsuited, hname]
    exact .error rfl

theorem agree_countArgument (i : Nat) : Agree τ Eq (countArgument args i) (countArgument args' i) :=
  (agree_intArgument hargs i).bind_eq fun _ => .ite (.error rfl) (.ok rfl)

theorem agree_deleted : HeapM.Agree τ (Value.Tied τ) (deleted args) (deleted args') := by
  unfold deleted
  have harg := argument_tied hargs 0
  have hkey := argument_tied hargs 1
  have hname := harg.typeName_eq
  have hname' := hkey.typeName_eq
  generalize argument args 0 = x, argument args' 0 = y at harg hname
  generalize argument args 1 = k, argument args' 1 = k' at hkey hname'
  cases harg with
  | map ha =>
    cases hkey with
    | string =>
      refine HeapM.Agree.bind (.change fun h1 h2 hh => ?_) fun _ _ _ => .pure .undefined
      exact ⟨hh.modifyMap ha fun h => h.erase _, ⟨rfl, rfl⟩, ⟨rfl, rfl⟩⟩
    | _ =>
      simp only [unsuited, hname']
      exact .throw rfl
  | _ =>
    simp only [unsuited, hname]
    exact .throw rfl

/-- What is taken out of an array is a part of it. -/
theorem agree_spliceRange (size : Nat) :
    Agree τ (fun r r' => r = r' ∧ r.1 ≤ r.2 ∧ r.2 ≤ size) (spliceRange args size) (spliceRange args' size) := by
  rw [spliceRange, spliceRange, hargs.length_eq]
  have hcount : ∀ {start : Nat}, ¬size < start → ∀ count : Nat,
      Agree τ (fun r r' => r = r' ∧ r.1 ≤ r.2 ∧ r.2 ≤ size) (.ok (start, min (start + count) size))
        (.ok (start, min (start + count) size)) :=
    fun hstart count => .ok ⟨rfl, by omega⟩
  have hrest : ∀ start : Nat, Agree τ (fun r r' => r = r' ∧ r.1 ≤ r.2 ∧ r.2 ≤ size)
      (if size < start then .error .indexOutOfBounds
        else if 2 < args'.length then do
          let count ← countArgument args 2
          return (start, min (start + count) size)
        else .ok (start, min (start + (size - start)) size))
      (if size < start then .error .indexOutOfBounds
        else if 2 < args'.length then do
          let count ← countArgument args' 2
          return (start, min (start + count) size)
        else .ok (start, min (start + (size - start)) size)) := by
    intro start
    by_cases hout : size < start
    · rw [if_pos hout, if_pos hout]
      exact .error rfl
    · rw [if_neg hout, if_neg hout]
      exact .ite ((agree_countArgument hargs 2).bind_eq (hcount hout)) (hcount hout _)
  exact .ite ((agree_countArgument hargs 1).bind_eq hrest) (hrest 0)

section Limited

variable (hl : l1.Tied τ l2)

include hl

omit hargs hl in
theorem size_append_list (items : Array Value) (more : List Value) :
    (items ++ more).size = items.size + more.length := by
  rw [← Array.length_toList, Array.toList_appendList, List.length_append, Array.length_toList]

theorem agree_appended (hsome : 1 ≤ args.length) : HeapM.Agree τ (Value.Tied τ) (appended l1 args) (appended l2 args') := by
  unfold appended
  have harg := argument_tied hargs 0
  have hname := harg.typeName_eq
  generalize argument args 0 = x, argument args' 0 = y at harg hname
  rw [← hargs.length_eq]
  cases harg with
  | array ha | frozenArray ha =>
    refine HeapM.Agree.get fun h1 h2 hh => ?_
    dsimp only
    rw [← (hh.array ha).size_eq]
    refine (HeapM.Agree.ofExcept (hl.checkArray _)).bind fun _ _ hfits => ?_
    refine .array ((hh.array ha).append_list (List.forall₂_drop 1 hargs)) (hl.permits.array _ ?_)
    rw [size_append_list, List.length_drop]
    omega
  | _ =>
    simp only [Arithmetic.arrayAddr?, unsuited, hname]
    exact .throw rfl

theorem agree_spliced : HeapM.Agree τ (Value.Tied τ) (spliced l1 args) (spliced l2 args') := by
  unfold spliced
  have harg := argument_tied hargs 0
  have hname := harg.typeName_eq
  generalize argument args 0 = x, argument args' 0 = y at harg hname
  cases harg with
  | @array a ha =>
    refine HeapM.Agree.get fun h1 h2 hh => ?_
    have hitems := hh.array ha
    have hinserted := List.forall₂_drop 3 hargs
    dsimp only
    rw [← hitems.size_eq]
    refine (HeapM.Agree.ofExcept (agree_spliceRange hargs _)).bind fun range range' hrange => ?_
    obtain ⟨rfl, hpart⟩ := hrange
    rw [← hinserted.length_eq]
    refine (HeapM.Agree.ofExcept (hl.checkArray _)).bind fun _ _ hfits => ?_
    refine HeapM.Agree.bind (.change fun h1 h2 hh => ?_) fun _ _ _ =>
      .array (hitems.extract _ _) (hl.permits.fewerItems _ _ (hh.obeys.array a ha) ?_)
    · refine ⟨hh.setArray (((hitems.extract _ _).append_list hinserted).append (hitems.extract _ _))
        (hl.permits.array _ ?_) a, ⟨rfl, rfl⟩, ⟨rfl, rfl⟩⟩
      rw [Array.size_append, size_append_list, Array.size_extract, Array.size_extract]
      omega
    · rw [Array.size_extract]
      omega
  | _ =>
    simp only [unsuited, hname]
    exact .throw rfl

theorem agree_stringOf : HeapM.Agree τ (Value.Tied τ) (stringOf l1 args) (stringOf l2 args') := by
  unfold stringOf
  have harg := argument_tied hargs 0
  have hfallback := argument_tied hargs 1
  have htext : HeapM.Agree τ (Value.Tied τ)
      (do return .string (← HeapM.read fun h => (argument args 0).plainTextWithin h l1.maxString))
      (do return .string (← HeapM.read fun h => (argument args' 0).plainTextWithin h l2.maxString)) := by
    refine (HeapM.Agree.read fun h1 h2 hh => Value.agree_plainTextWithin hh hl.string harg).bind fun s t hst => ?_
    obtain ⟨rfl, hfits⟩ := hst
    exact .pure (.string (hl.permits.string _ hfits))
  generalize argument args 0 = x, argument args' 0 = y at harg htext
  cases harg with
  | string hs => exact .pure (.string hs)
  | undefined => exact .pure hfallback
  | _ => exact htext

theorem agree_bytesOf : HeapM.Agree τ (Value.Tied τ) (bytesOf l1 args) (bytesOf l2 args') := by
  unfold bytesOf
  have harg := argument_tied hargs 0
  have hfallback := argument_tied hargs 1
  generalize argument args 0 = x, argument args' 0 = y at harg
  cases harg with
  | bytes ha => exact .pure (.bytes ha)
  | int n =>
    refine .ite (.pure hfallback) ((HeapM.Agree.ofExcept (hl.checkBytes _)).bind fun _ _ hfits =>
      .bytes (hl.permits.bytes _ ?_))
    rwa [Array.size_replicate]
  | string => exact (HeapM.Agree.ofExcept (hl.checkBytes _)).bind fun _ _ hfits => .bytes (hl.permits.bytes _ hfits)
  | _ => exact .pure hfallback

theorem agree_formatted : HeapM.Agree τ (Value.Tied τ) (formatted l1 args) (formatted l2 args') := by
  cases hargs with
  | nil => exact .throw rfl
  | cons hfmt hrest =>
    have hname := hfmt.typeName_eq
    cases hfmt with
    | @string fmt hs =>
      cases hrest with
      | nil => exact .pure (.string hs)
      | cons harg hrest =>
        refine (HeapM.Agree.read fun h1 h2 hh => Format.agree_format hh hl fmt (.cons harg hrest)).bind
          fun s t hst => ?_
        obtain ⟨rfl, hfits⟩ := hst
        exact .pure (.string (hl.permits.string _ hfits))
    | _ =>
      simp only [formatted, argument, List.getD_cons_zero, unsuited, hname]
      exact .throw rfl

theorem agree_ranged : HeapM.Agree τ (Value.Tied τ) (ranged l1 args) (ranged l2 args') := by
  rw [ranged, hargs.length_eq]
  refine (HeapM.Agree.ofExcept (agree_intArgument hargs 0)).bind fun start start' hstart => ?_
  refine (HeapM.Agree.ofExcept (agree_intArgument hargs 1)).bind fun stop stop' hstop => ?_
  refine (HeapM.Agree.ofExcept (.ite (agree_intArgument hargs 2) (.ok rfl))).bind fun step step' hstep => ?_
  subst hstart hstop hstep
  split
  · exact .throw rfl
  · refine (HeapM.Agree.ofExcept (hl.checkArray _)).bind fun _ _ hfits =>
      .array (.refl fun v hv => ?_) (hl.permits.array _ ?_)
    · obtain ⟨k, -, rfl⟩ := Array.mem_map.1 hv
      exact .int _
    · rwa [Array.size_map, size_range]

end Limited

/-- A conversion that looks only at values without parts. -/
theorem agree_converted {α : Type} {convert : Value → Option α} {make : α → Value}
    (hconvert : ∀ {v w : Value}, v.Tied τ w → convert w = convert v) (hmake : ∀ x, (make x).Tied τ (make x)) :
    HeapM.Agree τ (Value.Tied τ) (pure (((convert (argument args 0)).map make).getD (fallback args)))
      (pure (((convert (argument args' 0)).map make).getD (fallback args'))) := by
  rw [hconvert (argument_tied hargs 0)]
  cases convert (argument args 0) with
  | none => exact .pure (argument_tied hargs 1)
  | some x => exact .pure (hmake x)

/-- A builtin function does the same to arguments that correspond. -/
theorem agree_call (hl : l1.Tied τ l2) (b : Builtin) :
    HeapM.Agree τ (Value.Tied τ) (b.call l1 args) (b.call l2 args') := by
  have harg := argument_tied hargs 0
  have hexactly := fun n => HeapM.Agree.ofExcept (agree_exactly hargs n)
  have hbetween := fun low high => HeapM.Agree.ofExcept (agree_between hargs low high)
  have hatLeast := fun n => HeapM.Agree.ofExcept (agree_atLeast hargs n)
  have hpredicate : ∀ b : Builtin, HeapM.Agree τ (Value.Tied τ)
      (do HeapM.ofExcept (exactly 1 args); return .bool (holds b (argument args 0)))
      (do HeapM.ofExcept (exactly 1 args'); return .bool (holds b (argument args' 0))) := by
    intro b
    rw [holds_eq b harg]
    exact (hexactly 1).bind fun _ _ _ => .pure (.bool _)
  cases b with
  | len =>
    refine (hexactly 1).bind fun _ _ _ => ?_
    refine (HeapM.Agree.read fun h1 h2 hh => agree_lengthOf hh harg).bind fun n n' hn => ?_
    subst hn
    exact .pure (.int _)
  | copy => exact (hexactly 1).bind fun _ _ _ => Value.agree_copy (hl.permits.array 0 (Nat.zero_le _)) harg
  | append => exact (hatLeast 1).bind fun _ _ hsome => agree_appended hargs hl hsome
  | delete => exact (hexactly 2).bind fun _ _ _ => agree_deleted hargs
  | splice => exact (hatLeast 1).bind fun _ _ _ => agree_spliced hargs hl
  | string => exact (hbetween 1 2).bind fun _ _ _ => agree_stringOf hargs hl
  | bytes => exact (hbetween 1 2).bind fun _ _ _ => agree_bytesOf hargs hl
  | format => exact (hatLeast 1).bind fun _ _ _ => agree_formatted hargs hl
  | range => exact (hbetween 2 3).bind fun _ _ _ => agree_ranged hargs hl
  | int => exact (hbetween 1 2).bind fun _ _ _ => agree_converted hargs Value.Tied.toInt?_eq .int
  | float => exact (hbetween 1 2).bind fun _ _ _ => agree_converted hargs Value.Tied.toFloat?_eq .float
  | char => exact (hbetween 1 2).bind fun _ _ _ => agree_converted hargs Value.Tied.toChar?_eq .char
  | time => exact (hbetween 1 2).bind fun _ _ _ => agree_converted hargs Value.Tied.toTime?_eq .time
  | bool =>
    refine (hexactly 1).bind fun _ _ _ => HeapM.Agree.get fun h1 h2 hh => ?_
    rw [harg.corresponds.isFalsy_eq hh.corresponds]
    exact .pure (.bool _)
  | typeName =>
    refine (hexactly 1).bind fun _ _ _ => ?_
    rw [harg.typeName_eq]
    exact .pure (.string (hl.permits.typeName _ harg.obeys))
  | _ => exact hpredicate _

end Builtin

end ScriptEngine
