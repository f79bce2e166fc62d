import Mathlib.Data.List.TakeWhile
import ScriptEngine.Builtin.Call
/-!
# Formats without arguments

The builtin function `format` leaves a format alone when there is nothing to show, while the formatter still
reads it: it writes one percent sign for two, points out missing arguments and checks the size. Main
statement: where both give the same (`Builtin.call_format_eq_iff`).
-/

namespace ScriptEngine.Format

/-! ### Directives -/

/-- A character that can stand between the percent sign and the verb. -/
def isSpec (c : Char) : Bool := isFlag c || c.isDigit || c == '.'

theorem splitPrecision_append (cs : List Char) :
    ∃ spec, cs = spec ++ (splitPrecision cs).2 ∧ ∀ c ∈ spec, isSpec c := by
  unfold splitPrecision
  split
  · next rest =>
    refine ⟨'.' :: rest.takeWhile Char.isDigit, by simp, fun c hc => ?_⟩
    rcases List.mem_cons.1 hc with rfl | hc
    · rfl
    · simp [isSpec, List.mem_takeWhile_imp hc]
  · exact ⟨[], rfl, by simp⟩

/-- A specification is a part of the text, and the rest follows it. -/
theorem splitSpec_append (cs : List Char) : ∃ spec, cs = spec ++ (splitSpec cs).2 ∧ ∀ c ∈ spec, isSpec c := by
  obtain ⟨precision, hrest, hprecision⟩ := splitPrecision_append ((cs.dropWhile isFlag).dropWhile Char.isDigit)
  refine ⟨cs.takeWhile isFlag ++ ((cs.dropWhile isFlag).takeWhile Char.isDigit ++ precision), ?_, fun c hc => ?_⟩
  · have hdigits := (cs.dropWhile isFlag).takeWhile_append_dropWhile (p := Char.isDigit)
    rw [hrest] at hdigits
    rw [splitSpec, List.append_assoc, List.append_assoc, hdigits, List.takeWhile_append_dropWhile]
  · simp only [List.mem_append] at hc
    rcases hc with hc | hc | hc
    · simp [isSpec, List.mem_takeWhile_imp hc]
    · simp [isSpec, List.mem_takeWhile_imp hc]
    · exact hprecision c hc

/-! ### What is shown -/

/-- What a part of a format shows when there is no argument for it. -/
def Piece.bare : Piece → String
  | .literal c => String.singleton c
  | .directive _ verb => "%!" ++ String.singleton verb ++ "(MISSING)"
  | .noVerb => "%!(NOVERB)"

/-- What a format shows when there are no arguments. -/
def bare (cs : List Char) : List Char := (parseInto [] cs).flatMap (·.bare.toList)

section

variable {cs rest : List Char} {c verb : Char} (found : List Piece)

theorem parseInto_cons (hc : c ≠ '%') : parseInto found (c :: cs) = parseInto (.literal c :: found) cs := by
  rw [parseInto, if_neg hc]

theorem parseInto_noVerb (h : (splitSpec cs).2 = []) : parseInto found ('%' :: cs) = (.noVerb :: found).reverse := by
  rw [parseInto, if_pos rfl]
  dsimp only
  split
  · rfl
  · next hverb => cases h.symm.trans hverb

theorem parseInto_verb (h : (splitSpec cs).2 = verb :: rest) : parseInto found ('%' :: cs) =
    parseInto ((if verb = '%' then .literal '%' else .directive (splitSpec cs).1 verb) :: found) rest := by
  rw [parseInto, if_pos rfl]
  dsimp only
  split
  · next hnone => cases h.symm.trans hnone
  · next hverb =>
    cases h.symm.trans hverb
    rfl

/-- The parts found first come first. -/
theorem parseInto_append (found more : List Piece) (cs : List Char) :
    parseInto (found ++ more) cs = more.reverse ++ parseInto found cs := by
  fun_induction parseInto found cs with
  | case1 found => simp [parseInto]
  | case2 found cs spec hnone => simp [parseInto_noVerb _ hnone]
  | case3 found cs spec verb rest hverb piece ih => exact (parseInto_verb _ hverb).trans ih
  | case4 found c cs hc ih => rw [parseInto_cons _ hc, ← ih, List.cons_append]

theorem bare_parseInto (piece : Piece) (cs : List Char) :
    (parseInto [piece] cs).flatMap (·.bare.toList) = piece.bare.toList ++ bare cs := by
  rw [show [piece] = [] ++ [piece] from rfl, parseInto_append]
  simp [bare]

theorem bare_nil : bare [] = [] := by simp [bare, parseInto]

theorem bare_cons (hc : c ≠ '%') (cs : List Char) : bare (c :: cs) = c :: bare cs := by
  rw [bare, parseInto_cons _ hc, bare_parseInto, Piece.bare, String.toList_singleton, List.singleton_append]

theorem bare_noVerb (h : (splitSpec cs).2 = []) : bare ('%' :: cs) = "%!(NOVERB)".toList := by
  rw [bare, parseInto_noVerb _ h, List.reverse_singleton, List.flatMap_singleton, Piece.bare]

theorem bare_percent (h : (splitSpec cs).2 = '%' :: rest) : bare ('%' :: cs) = '%' :: bare rest := by
  rw [bare, parseInto_verb _ h, bare_parseInto, if_pos rfl, Piece.bare, String.toList_singleton, List.singleton_append]

theorem bare_verb (h : (splitSpec cs).2 = verb :: rest) (hverb : verb ≠ '%') :
    bare ('%' :: cs) = '%' :: '!' :: verb :: ("(MISSING)".toList ++ bare rest) := by
  rw [bare, parseInto_verb _ h, bare_parseInto, if_neg hverb, Piece.bare]
  simp

end

theorem addPieces_bare (h : Heap) (limits : Limits) (pieces : List Piece) (out : String) :
    addPieces h limits pieces [] out =
      .ok (out ++ String.ofList (pieces.flatMap (·.bare.toList)), []) := by
  induction pieces generalizing out with
  | nil => simp [addPieces]
  | cons piece pieces ih =>
    have hpiece : addPieces h limits (piece :: pieces) [] out = addPieces h limits pieces [] (out ++ piece.bare) := by
      cases piece with
      | literal c => rw [addPieces, Piece.bare, String.append_singleton]
      | directive spec verb => simp only [addPieces, Piece.bare, String.append_assoc]
      | noVerb => rw [addPieces, Piece.bare]
    rw [hpiece, ih, List.flatMap_cons, String.ofList_append, String.ofList_toList, String.append_assoc]

/-- Without arguments, only the size can be wrong. -/
theorem format_bare (h : Heap) (limits : Limits) (fmt : String) :
    format h limits fmt [] = if limits.maxString < (String.ofList (bare fmt.toList)).utf8ByteSize then .error .stringLimit
      else .ok (String.ofList (bare fmt.toList)) := by
  rw [format, addPieces_bare]
  change (limits.checkString (String.ofList (bare fmt.toList)).utf8ByteSize >>= fun _ => _) = _
  rw [Limits.checkString]
  split <;> rfl

/-! ### What is shown as it is written -/

theorem bare_append {front : List Char} (hfront : '%' ∉ front) (cs : List Char) :
    bare (front ++ cs) = front ++ bare cs := by
  induction front with
  | nil => rfl
  | cons c front ih =>
    rw [List.mem_cons, not_or] at hfront
    rw [List.cons_append, bare_cons (Ne.symm hfront.1), ih hfront.2, List.cons_append]

theorem bare_eq_self {cs : List Char} (h : '%' ∉ cs) : bare cs = cs := by
  have happend := bare_append h []
  rwa [bare_nil, List.append_nil] at happend

/-- A text would have to go on for ever to be what is shown of it after some other characters. -/
theorem append_bare_ne (front : List Char) (hne : front ≠ []) (hfront : '%' ∉ front) (cs : List Char) :
    front ++ bare cs ≠ cs := by
  induction hn : cs.length using Nat.strong_induction_on generalizing cs with
  | _ n ih =>
    intro heq
    have hpos : 0 < front.length := List.length_pos_iff.2 hne
    obtain ⟨rest, hrest⟩ : ∃ rest, bare cs = rest := ⟨_, rfl⟩
    rw [hrest] at heq
    have hshown : front ++ bare rest = rest := by rw [← bare_append hfront, heq, hrest]
    exact ih rest.length (by rw [← hn, ← heq, List.length_append]; omega) rest rfl hshown

/-- An exclamation mark is shown after a percent sign; it is no part of a specification. -/
theorem eq_nil_of_mark {spec rest tail : List Char} (hspec : ∀ c ∈ spec, c = '%' ∨ isSpec c)
    (h : spec ++ rest = '!' :: tail) : spec = [] := by
  cases spec with
  | nil => rfl
  | cons c spec =>
    obtain ⟨rfl, -⟩ := List.cons.inj h
    exact absurd (hspec '!' (.head _)) (by decide)

/-- What is shown has no percent sign more than what is written: it would start with one, and the next
one would follow. -/
theorem bare_ne_append (front : List Char) (hfront : ∀ c ∈ front, c = '%' ∨ isSpec c) (hmem : '%' ∈ front)
    (cs : List Char) : bare cs ≠ front ++ cs := by
  induction hn : cs.length using Nat.strong_induction_on generalizing cs front with
  | _ n ih =>
    intro heq
    obtain ⟨d, front, rfl⟩ := List.exists_cons_of_ne_nil (List.ne_nil_of_mem hmem)
    have htail : ∀ c ∈ front, c = '%' ∨ isSpec c := fun c hc => hfront c (.tail _ hc)
    cases cs with
    | nil => simp [bare_nil] at heq
    | cons c cs =>
      by_cases hc : c = '%'
      · subst hc
        have hmark : ∀ {tail}, bare ('%' :: cs) ≠ '%' :: '!' :: tail := by
          intro tail hshown
          obtain ⟨-, hrest⟩ := List.cons.inj (heq.symm.trans hshown)
          have hnil := eq_nil_of_mark htail hrest
          rw [hnil] at hrest
          cases hrest
        cases hsplit : (splitSpec cs).2 with
        | nil => exact hmark (bare_noVerb hsplit)
        | cons verb rest =>
          by_cases hverb : verb = '%'
          · subst hverb
            obtain ⟨spec, hspec, hspecs⟩ := splitSpec_append cs
            rw [hsplit] at hspec
            rw [bare_percent hsplit] at heq
            obtain ⟨-, heq⟩ := List.cons.inj heq
            have hlt : rest.length < n := by
              rw [← hn, hspec]
              simp
              omega
            exact ih rest.length hlt (front ++ '%' :: spec ++ ['%']) (by grind) (by simp) rest rfl (by simp [heq, hspec])
          · exact hmark (bare_verb hsplit hverb)
      · rw [bare_cons hc] at heq
        obtain ⟨rfl, hrest⟩ := List.cons.inj heq
        exact ih cs.length (by simp [← hn]) (front ++ [c]) (by grind) (by grind) cs rfl (hrest.trans (by simp))

/-- A format is shown as it is written iff it has no percent sign. -/
theorem bare_eq_self_iff (cs : List Char) : bare cs = cs ↔ '%' ∉ cs := by
  refine ⟨fun heq hmem => ?_, bare_eq_self⟩
  obtain ⟨front, rest, rfl, hfront⟩ := List.eq_append_cons_of_mem hmem
  rw [bare_append hfront, List.append_cancel_left_eq] at heq
  obtain ⟨spec, hspec, hspecs⟩ := splitSpec_append rest
  have hspecs' : ∀ c ∈ spec, c = '%' ∨ isSpec c := fun c hc => .inr (hspecs c hc)
  cases hsplit : (splitSpec rest).2 with
  | nil =>
    rw [hsplit] at hspec
    rw [bare_noVerb hsplit, hspec] at heq
    obtain ⟨-, hrest⟩ := List.cons.inj heq
    have hnil := eq_nil_of_mark hspecs' hrest.symm
    rw [hnil] at hrest
    cases hrest
  | cons verb tail =>
    rw [hsplit] at hspec
    by_cases hverb : verb = '%'
    · subst hverb
      rw [bare_percent hsplit, hspec] at heq
      obtain ⟨-, heq⟩ := List.cons.inj heq
      exact bare_ne_append (spec ++ ['%']) (by grind) (by simp) tail (by simp [heq])
    · rw [bare_verb hsplit hverb, hspec] at heq
      obtain ⟨-, hrest⟩ := List.cons.inj heq
      have hnil := eq_nil_of_mark hspecs' hrest.symm
      rw [hnil] at hrest
      obtain ⟨rfl, htail⟩ := List.cons.inj hrest
      exact append_bare_ne ('!' :: "(MISSING)".toList) (by simp) (by decide) tail htail

end ScriptEngine.Format

namespace ScriptEngine.Builtin

/-- The builtin function `format` gives what the formatter gives, success or failure, iff there are arguments, or
the format has neither a percent sign nor too many bytes. -/
theorem call_format_eq_iff (limits : Limits) (fmt : String) (args : List Value) (h : Heap) :
    call limits .format (.string fmt :: args) h = HeapM.ofExcept ((Format.format h limits fmt args).map .string) h ↔
      args ≠ [] ∨ '%' ∉ fmt.toList ∧ fmt.utf8ByteSize ≤ limits.maxString := by
  cases args with
  | cons arg args =>
    refine ⟨fun _ => .inl (List.cons_ne_nil _ _), fun _ => ?_⟩
    have hread : ∀ r : Except Fault String,
        (HeapM.ofExcept r >>= fun text => pure (.string text)) h = HeapM.ofExcept (r.map Value.string) h := by
      rintro (_ | _) <;> rfl
    exact hread (Format.format h limits fmt (arg :: args))
  | nil =>
    have hcall : call limits .format [.string fmt] h = .ok (.string fmt) h := rfl
    rw [hcall, Format.format_bare, ← Format.bare_eq_self_iff]
    simp only [ne_eq, not_true_eq_false, false_or]
    constructor
    · intro heq
      split at heq
      · cases heq
      · next hsize =>
        have hbare : fmt = String.ofList (Format.bare fmt.toList) := by
          injection heq with hvalue
          injection hvalue
        rw [← hbare] at hsize
        exact ⟨(String.toList_ofList).symm.trans (congrArg String.toList hbare.symm), Nat.not_lt.1 hsize⟩
    · rintro ⟨hbare, hsize⟩
      rw [hbare, String.ofList_toList, if_neg (Nat.not_lt.2 hsize)]
      rfl

/-- Two percent signs are left as they are, though the formatter shows one. -/
theorem call_format_percent : call {} .format [.string "100%%"] {} = .ok (.string "100%%") {} ∧
    Format.format {} {} "100%%" [] = .ok "100%" := by
  refine ⟨rfl, ?_⟩
  rw [Format.format_bare]
  have hbare : Format.bare "100%%".toList = "100%".toList := by
    change Format.bare ("100".toList ++ ['%', '%']) = _
    rw [Format.bare_append (by decide), Format.bare_percent rfl, Format.bare_nil]
    rfl
  rw [hbare]
  rfl

end ScriptEngine.Builtin
