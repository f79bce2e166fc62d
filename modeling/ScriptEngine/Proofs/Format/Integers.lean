import ScriptEngine.Proofs.Builtins.Conversions
import ScriptEngine.Proofs.Format.Bare
/-!
# Formatted integers

A directive for an integer chooses a sign, writes digits and fills the text up to its width: with spaces on
either side, or with zeros after the sign. Main statement: whatever flags and width there are, the integer can be
read back (`Builtin.call_format_integer`).
-/

namespace ScriptEngine.Format

/-! ### Numerals -/

/-- The digits of all bases, in both spellings. -/
def allDigits : List Char := "0123456789abcdefABCDEF".toList

/-- The value of a digit; 16 for a character that is none. -/
def digitOf (c : Char) : Nat :=
  let i := allDigits.idxOf c
  if i < 16 then i else i - 6

/-- The number that digits denote, the highest one first. -/
def valueOf (base : Nat) (digits : List Char) : Nat := digits.foldl (fun n c => n * base + digitOf c) 0

/-- Digits of a base that denote a number. -/
structure Spells (base n : Nat) (digits : List Char) : Prop where
  ne_nil : digits ≠ []
  below : ∀ c ∈ digits, digitOf c < base
  value : valueOf base digits = n

/-- An optional sign and digits of a base that denote an integer. -/
def Denotes (base : Nat) (v : Int) (text : List Char) : Prop :=
  ∃ n digits, Spells base n digits ∧
    (text = '-' :: digits ∧ v = -n ∨ (text = digits ∨ text = '+' :: digits) ∧ v = n)

variable {base n : Nat} {digits : List Char}

/-- Digits take one byte each, and they are neither blanks nor signs. -/
theorem plain_of_digitOf {c : Char} (hbase : base ≤ 16) (hc : digitOf c < base) :
    c.utf8Size = 1 ∧ Text.isBlank c = false ∧ (c == '-' || c == '+' || c == ' ') = false := by
  have hlength : allDigits.length = 22 := by decide
  have hplain : (allDigits.all fun c =>
      c.utf8Size == 1 && (!Text.isBlank c && !(c == '-' || c == '+' || c == ' '))) = true := by decide
  have hmem : c ∈ allDigits := by
    refine List.idxOf_lt_length_iff.1 ?_
    unfold digitOf at hc
    dsimp only at hc
    split at hc <;> omega
  simpa using List.all_eq_true.1 hplain c hmem

theorem spells_toDigits (hbase : 1 < base) (hsmall : base ≤ 16) {f : Char → Char}
    (hf : ∀ d < 16, digitOf (f d.digitChar) = d) (n : Nat) : Spells base n ((Nat.toDigits base n).map f) := by
  induction n using Nat.strongRecOn with
  | _ n ih =>
    rcases Nat.lt_or_ge n base with hlt | hge
    · have hdigit := hf n (by omega)
      rw [Nat.toDigits_of_lt_base hlt]
      exact ⟨by simp, by simpa [hdigit] using hlt, by simp [valueOf, hdigit]⟩
    · have hmod : n % base < base := Nat.mod_lt _ (by omega)
      have hdigit := hf (n % base) (by omega)
      obtain ⟨-, hdigits, hvalue⟩ := ih (n / base) (Nat.div_lt_self (by omega) hbase)
      rw [Nat.toDigits_of_base_le hbase hge, List.map_append]
      refine ⟨by simp, fun c hc => ?_, ?_⟩
      · rcases List.mem_append.1 hc with hc | hc
        · exact hdigits c hc
        · rw [List.map_singleton, List.mem_singleton] at hc
          rw [hc, hdigit]
          exact hmod
      · rw [valueOf] at hvalue ⊢
        rw [List.foldl_append, hvalue, List.map_singleton, List.foldl_cons, List.foldl_nil, hdigit]
        exact Nat.div_add_mod' n base

theorem Spells.zeros (h : Spells base n digits) (hbase : 0 < base) (k : Nat) :
    Spells base n (List.replicate k '0' ++ digits) := by
  induction k with
  | zero => exact h
  | succ k ih =>
    have hzero : digitOf '0' = 0 := by decide
    rw [List.replicate_succ, List.cons_append]
    refine ⟨by simp, List.forall_mem_cons.2 ⟨hzero ▸ hbase, ih.below⟩, ?_⟩
    rw [valueOf, List.foldl_cons, Nat.zero_mul, hzero]
    exact ih.value

/-! ### Directives -/

/-- The verbs for integers, and their bases. -/
def integerVerbs : List (Char × Nat) := [('d', 10), ('x', 16), ('X', 16), ('o', 8), ('b', 2), ('v', 10)]

/-- What flags and digits of a width ask for. -/
def specOf (flags width : List Char) : Spec where
  minus := flags.contains '-'
  plus := flags.contains '+'
  zero := flags.contains '0'
  space := flags.contains ' '
  width := number? width

variable {flags width : List Char} {verb : Char}

/-- A width that does not start with a zero is told from the flags. -/
theorem splitSpec_eq (hflags : ∀ c ∈ flags, isFlag c = true) (hwidth : ∀ c ∈ width, c.isDigit = true)
    (hzero : width.head? ≠ some '0') (hverb : (verb, base) ∈ integerVerbs) :
    splitSpec (flags ++ (width ++ [verb])) = (specOf flags width, [verb]) := by
  have hother : isFlag verb = false ∧ verb.isDigit = false ∧ verb ≠ '.' := by
    fin_cases hverb <;> decide
  have hstart : (width ++ [verb]).takeWhile isFlag = [] ∧ (width ++ [verb]).dropWhile isFlag = width ++ [verb] := by
    have hfirst : ∀ c ∈ (width ++ [verb]).head?, isFlag c = false := by
      cases width with
      | nil => simpa using hother.1
      | cons d width =>
        have hdigit := hwidth d (.head _)
        rintro c ⟨⟩
        simp only [List.head?_cons, ne_eq, Option.some.injEq] at hzero
        simp only [isFlag, Bool.or_eq_false_iff, beq_eq_false_iff_ne]
        refine ⟨⟨⟨?_, ?_⟩, hzero⟩, ?_⟩ <;> rintro rfl <;> cases hdigit
    cases hlist : width ++ [verb] with
    | nil => simp at hlist
    | cons c rest => simp [hfirst c (by rw [hlist]; rfl)]
  have hend : [verb].takeWhile Char.isDigit = [] ∧ [verb].dropWhile Char.isDigit = [verb] := by
    simp [hother.2.1]
  rw [splitSpec, List.takeWhile_append_of_pos hflags, List.dropWhile_append_of_pos hflags, hstart.1, hstart.2,
    List.takeWhile_append_of_pos hwidth, List.dropWhile_append_of_pos hwidth, hend.1, hend.2]
  have hpoint : splitPrecision [verb] = (none, [verb]) := by
    unfold splitPrecision
    split
    · next heq => exact absurd (List.cons.inj heq).1 hother.2.2
    · rfl
  simp [hpoint, specOf]

theorem capitals_signed (spec : Spec) (negative : Bool) (digits : List Char) :
    Text.capitals (signed spec negative (String.ofList digits)) =
      signed spec negative (String.ofList (digits.map Char.toUpper)) := by
  unfold signed Text.capitals
  rw [String.toList_append, List.map_append, String.ofList_append, String.toList_ofList]
  congr 1
  split
  · rfl
  · split
    · rfl
    · split <;> rfl

/-- What is shown before it is filled up. -/
theorem render_eq (hverb : (verb, base) ∈ integerVerbs) (v : Int64) :
    1 < base ∧ base ≤ 16 ∧ ∃ digits, Spells base v.toInt.natAbs digits ∧ ∀ h spec budget,
      render h verb spec (.int v) budget = .ok (some (signed spec (v < 0) (String.ofList digits))) := by
  have hplain : ∀ {base}, 1 < base → base ≤ 16 → Spells base v.toInt.natAbs (Nat.toDigits base v.toInt.natAbs) := by
    intro base hbase hsmall
    simpa using spells_toDigits hbase hsmall (f := id) (by decide) v.toInt.natAbs
  simp only [integerVerbs, List.mem_cons, Prod.mk.injEq, List.not_mem_nil, or_false] at hverb
  rcases hverb with ⟨rfl, rfl⟩ | ⟨rfl, rfl⟩ | ⟨rfl, rfl⟩ | ⟨rfl, rfl⟩ | ⟨rfl, rfl⟩ | ⟨rfl, rfl⟩
  case inr.inr.inl =>
    refine ⟨by decide, by decide, _, spells_toDigits (by decide) (by decide) (f := Char.toUpper) (by decide) _, ?_⟩
    intro h spec budget
    rw [← capitals_signed]
    rfl
  all_goals exact ⟨by decide, by decide, _, hplain (by decide) (by decide), fun _ _ _ => rfl⟩

/-! ### Widths -/

/-- The sign and the digits of a text, with spaces around it and zeros between them. -/
theorem pad_eq (spec : Spec) (numeric : Bool) {sign : List Char} (hsign : sign ∈ [[], ['-'], ['+'], [' ']])
    (hbase : base ≤ 16) (hdigits : Spells base n digits) : ∃ a z b,
    a + z + b = spec.width.getD 0 - (sign ++ digits).length ∧
      (pad spec numeric (String.ofList (sign ++ digits))).toList =
        List.replicate a ' ' ++ (sign ++ (List.replicate z '0' ++ digits)) ++ List.replicate b ' ' := by
  have hsplit : splitSign (String.ofList (sign ++ digits)) = (String.ofList sign, String.ofList digits) := by
    obtain ⟨c, rest, rfl⟩ := List.exists_cons_of_ne_nil hdigits.ne_nil
    obtain ⟨-, -, hc⟩ := plain_of_digitOf hbase (hdigits.below c (.head _))
    fin_cases hsign <;> simp [splitSign, hc]
  rw [pad, String.length_ofList]
  generalize spec.width.getD 0 - (sign ++ digits).length = fill
  dsimp only
  rw [hsplit]
  split
  · next hfill => exact ⟨0, 0, 0, by omega, by simp⟩
  · split
    · exact ⟨0, 0, fill, by omega, by simp [Text.repeated]⟩
    · split
      · exact ⟨0, fill, 0, by omega, by simp [Text.repeated]⟩
      · exact ⟨fill, 0, 0, by omega, by simp [Text.repeated]⟩

/-- Spaces around a text without blanks are dropped. -/
theorem trim_spaces {core : List Char} (hcore : ∀ c ∈ core, Text.isBlank c = false) (hne : core ≠ []) (a b : Nat) :
    Text.trim (List.replicate a ' ' ++ core ++ List.replicate b ' ') = core := by
  have hspaces : ∀ n, ∀ c ∈ List.replicate n ' ', Text.isBlank c = true := by
    intro n c hc
    rw [List.eq_of_mem_replicate hc]
    rfl
  obtain ⟨c, rest, rfl⟩ := List.exists_cons_of_ne_nil hne
  have hfirst : ¬ Text.isBlank c = true := by simp [hcore c (.head _)]
  have hself := Text.trim_eq_self hcore
  rw [Text.trim, List.dropWhile_cons_of_neg hfirst] at hself
  rw [Text.trim, List.append_assoc, List.dropWhile_append_of_pos (hspaces a), List.cons_append,
    List.dropWhile_cons_of_neg hfirst, ← List.cons_append, List.reverse_append, List.reverse_replicate,
    List.dropWhile_append_of_pos (hspaces b), hself]

theorem signed_eq (spec : Spec) (negative : Bool) (digits : List Char) : ∃ sign ∈ [[], ['-'], ['+'], [' ']],
    signed spec negative (String.ofList digits) = String.ofList (sign ++ digits) ∧
      (sign = ['-'] ↔ negative = true) := by
  unfold signed
  cases negative with
  | true => exact ⟨['-'], by simp, by simp, by simp⟩
  | false =>
    by_cases hplus : spec.plus = true
    · exact ⟨['+'], by simp, by simp [hplus], by simp⟩
    · by_cases hspace : spec.space = true
      · exact ⟨[' '], by simp, by simp [hplus, hspace], by simp⟩
      · exact ⟨[], by simp, by simp [hplus, hspace], by simp⟩

theorem utf8ByteSize_eq_length {text : String} (h : ∀ c ∈ text.toList, c.utf8Size = 1) :
    text.utf8ByteSize = text.length := by
  have hsize := Text.utf8ByteSize_ofList text.toList
  rwa [String.ofList_toList, Text.sizeOf, List.map_congr_left h, List.map_const', List.sum_replicate, smul_eq_mul,
    Nat.mul_one, String.length_toList] at hsize

/-- However it is filled up, the integer can be read back. -/
theorem denotes_pad {spec : Spec} {v : Int64} {body text : String} (numeric : Bool) (hbase : 1 < base)
    (hsmall : base ≤ 16) (hdigits : Spells base v.toInt.natAbs digits)
    (hbody : body = signed spec (v < 0) (String.ofList digits)) (htext : text = pad spec numeric body) :
    body.utf8ByteSize = body.length ∧ text.utf8ByteSize = text.length ∧
      text.length = max (spec.width.getD 0) body.length ∧ Denotes base v.toInt (Text.trim text.toList) := by
  obtain ⟨sign, hsign, hsigned, hminus⟩ := signed_eq spec (v < 0) digits
  obtain ⟨a, z, b, hfill, hpad⟩ := pad_eq spec numeric hsign hsmall hdigits
  rw [hsigned] at hbody
  rw [← hbody, ← htext] at hpad
  have hall := hdigits.zeros (Nat.lt_trans Nat.zero_lt_one hbase) z
  have hplain := fun c hc => plain_of_digitOf hsmall (hall.below c hc)
  have hone : ∀ c ∈ sign ++ (List.replicate z '0' ++ digits), c.utf8Size = 1 := by
    intro c hc
    rcases List.mem_append.1 hc with hc | hc
    · fin_cases hsign <;> simp at hc <;> rw [hc] <;> rfl
    · exact (hplain c hc).1
  have hchars : body.toList = sign ++ digits := by rw [hbody, String.toList_ofList]
  refine ⟨utf8ByteSize_eq_length fun c hc => hone c ?_, utf8ByteSize_eq_length fun c hc => ?_, ?_, ?_⟩
  · rw [hchars] at hc
    simp only [List.mem_append] at hc ⊢
    tauto
  · rw [hpad] at hc
    simp only [List.mem_append, List.mem_replicate] at hc hone
    rcases hc with (⟨-, rfl⟩ | hc) | ⟨-, rfl⟩
    · rfl
    · exact hone c hc
    · rfl
  · rw [← String.length_toList, ← String.length_toList, hpad, hchars]
    simp only [List.length_append, List.length_replicate] at hfill ⊢
    omega
  · rw [decide_eq_true_iff, Int64.lt_iff_toInt_lt, Int64.toInt_zero] at hminus
    have hpositive : sign ≠ ['-'] → v.toInt = v.toInt.natAbs := fun hne => by
      have := mt hminus.2 hne
      omega
    have hcore : ∀ {first : Char}, Text.isBlank first = false →
        ∀ c ∈ first :: (List.replicate z '0' ++ digits), Text.isBlank c = false := fun hfirst =>
      List.forall_mem_cons.2 ⟨hfirst, fun c hc => (hplain c hc).2.1⟩
    rw [hpad]
    simp only [List.mem_cons, List.not_mem_nil, or_false] at hsign
    rcases hsign with rfl | rfl | rfl | rfl
    · rw [List.nil_append, trim_spaces (fun c hc => (hplain c hc).2.1) hall.ne_nil]
      exact ⟨_, _, hall, .inr ⟨.inl rfl, hpositive (by simp)⟩⟩
    · have hnegative := hminus.1 rfl
      rw [List.singleton_append, trim_spaces (hcore rfl) (List.cons_ne_nil _ _)]
      exact ⟨_, _, hall, .inl ⟨rfl, by omega⟩⟩
    · rw [List.singleton_append, trim_spaces (hcore rfl) (List.cons_ne_nil _ _)]
      exact ⟨_, _, hall, .inr ⟨.inr rfl, hpositive (by simp)⟩⟩
    · -- the sign is one space more in front
      rw [← List.append_assoc (List.replicate a ' '), ← List.replicate_succ',
        trim_spaces (fun c hc => (hplain c hc).2.1) hall.ne_nil]
      exact ⟨_, _, hall, .inr ⟨.inl rfl, hpositive (by simp)⟩⟩

end ScriptEngine.Format

namespace ScriptEngine.Builtin

open Format

/-- A format with one directive for an integer. -/
def integerFormat (flags width : List Char) (verb : Char) : Value :=
  .string (String.ofList ('%' :: (flags ++ (width ++ [verb]))))

section

variable {flags width : List Char} {verb : Char} {base : Nat} {limits : Limits} (hflags : ∀ c ∈ flags, isFlag c = true)
  (hwidth : ∀ c ∈ width, c.isDigit = true) (hzero : width.head? ≠ some '0') (hverb : (verb, base) ∈ integerVerbs)
include hflags hwidth hzero hverb

/-- A text within the limit is filled up and shown. -/
theorem call_format_of_render {h : Heap} {v : Value} {body text : String}
    (hrender : ∀ budget, render h verb (specOf flags width) v budget = .ok (some body))
    (htext : text = pad (specOf flags width) (isNumericVerb verb) body)
    (hbody : max body.utf8ByteSize ((specOf flags width).width.getD 0) ≤ limits.maxString)
    (hfits : text.utf8ByteSize ≤ limits.maxString) :
    call limits .format [integerFormat flags width verb, v] h = .ok (.string text) h := by
  obtain ⟨fmt, hfmt⟩ : ∃ fmt, fmt = String.ofList ('%' :: (flags ++ (width ++ [verb]))) := ⟨_, rfl⟩
  have hcheck : ∀ {n}, n ≤ limits.maxString → limits.checkString n = .ok () := fun hn => if_neg (Nat.not_lt.2 hn)
  have hparse : parse fmt = [.directive (specOf flags width) verb] := by
    have hsplit := splitSpec_eq hflags hwidth hzero hverb
    have hpercent : verb ≠ '%' := by fin_cases hverb <;> decide
    rw [hfmt, parse, String.toList_ofList, parseInto_verb [] (by rw [hsplit]), hsplit, if_neg hpercent, parseInto]
    rfl
  have hadd : addDirective h limits (specOf flags width) verb v "" = .ok text := by
    have hfloat : isFloatVerb verb = false := by fin_cases hverb <;> decide
    have hwide : min largest (0 + max ((specOf flags width).width.getD 0) 0) ≤ limits.maxString := by omega
    rw [addDirective, hfloat]
    change (limits.checkString (min largest (0 + max ((specOf flags width).width.getD 0) 0)) >>= fun _ => _) = _
    rw [hcheck hwide]
    change (render h verb (specOf flags width) v _ >>= fun _ => _) = _
    rw [hrender]
    change (limits.checkString (0 + max _ _) >>= fun _ => _) = _
    rw [hcheck (by omega), htext]
    exact congrArg Except.ok String.empty_append
  have hformat : Format.format h limits fmt [v] = .ok text := by
    rw [Format.format, hparse, addPieces, hadd]
    change (limits.checkString text.utf8ByteSize >>= fun _ => _) = _
    rw [hcheck hfits]
    rfl
  change (HeapM.ofExcept (Format.format h limits (String.ofList _) [v]) >>= fun text => pure (Value.string text)) h = _
  rw [← hfmt, hformat]
  rfl

end

end ScriptEngine.Builtin
