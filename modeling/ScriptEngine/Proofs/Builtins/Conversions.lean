import ScriptEngine.Builtin.Call
import ScriptEngine.Proofs.Value.Arithmetic
import ScriptEngine.Proofs.Value.Texts
/-!
# Conversions that undo each other

Integers, texts, bytes and characters are converted into each other. Main statement: where the limits admit the
results, what is converted and converted back is what it was (`Builtin.call_conversions`).
-/

namespace ScriptEngine

/-! ### Numerals -/

theorem Text.trim_eq_self {cs : List Char} (h : ∀ c ∈ cs, isBlank c = false) : trim cs = cs := by
  have hdrop : ∀ {cs : List Char}, (∀ c ∈ cs, isBlank c = false) → cs.dropWhile isBlank = cs := by
    intro cs h
    cases cs with
    | nil => rfl
    | cons c cs => rw [List.dropWhile_cons_of_neg (by rw [h c (.head _)]; decide)]
  rw [trim, hdrop h, hdrop fun c hc => h c (List.mem_reverse.1 hc), List.reverse_reverse]

theorem Text.isBlank_of_isDigit {c : Char} (h : c.isDigit = true) : isBlank c = false := by
  have hbounds : 48 ≤ c.toNat ∧ c.toNat ≤ 57 := by simpa [Char.isDigit_iff_toNat] using h
  simp only [isBlank, Bool.or_eq_false_iff, Bool.and_eq_false_iff, decide_eq_false_iff_not, beq_eq_false_iff_ne]
  omega

namespace Decimal

theorem readInt?_digits {digits : List Char} (hne : digits ≠ []) (hdigits : ∀ c ∈ digits, c.isDigit = true) :
    readInt? digits = some (ofDigits digits : Int) ∧ readInt? ('-' :: digits) = some (-(ofDigits digits : Int)) := by
  have hall : (digits ≠ [] && digits.all Char.isDigit) = true := by simpa [hne] using hdigits
  have hsplit : splitSign digits = (false, digits) := by
    unfold splitSign
    split
    · exact absurd (hdigits _ (.head _)) (by decide)
    · exact absurd (hdigits _ (.head _)) (by decide)
    · rfl
  refine ⟨?_, ?_⟩
  · rw [readInt?, hsplit]
    exact if_pos hall
  · exact if_pos hall

/-- An integer is read from its text. -/
theorem readInt64?_text (v : Int64) : readInt64? (Text.trim (intText v).toList) = some v := by
  obtain ⟨digits, hdigits⟩ : ∃ digits, digits = Nat.toDigits 10 v.toInt.natAbs := ⟨_, rfl⟩
  have hall : ∀ c ∈ digits, c.isDigit = true := fun c hc =>
    Nat.isDigit_of_mem_toDigits (by decide) (by decide) (hdigits ▸ hc)
  have hvalue : ofDigits digits = v.toInt.natAbs := by
    have hread := Nat.ofDigitChars_ten_toDigits (n := v.toInt.natAbs)
    rw [Nat.ofDigitChars_eq_foldl] at hread
    simpa only [hdigits, ofDigits, Nat.mul_comm] using hread
  have htext : (intText v).toList = if v.toInt < 0 then '-' :: digits else digits := by
    rw [intText, Text.integer, Text.decimal, Text.numeral, ← hdigits]
    split <;> simp
  obtain ⟨hplain, hminus⟩ := readInt?_digits (hdigits ▸ Nat.toDigits_ne_nil) hall
  have hread : readInt? (Text.trim (intText v).toList) = some v.toInt := by
    rw [htext, Text.trim_eq_self]
    · split
      · rw [hminus, hvalue]
        congr 1
        omega
      · rw [hplain, hvalue]
        congr 1
        omega
    · split
      · exact fun c hc => (List.mem_cons.1 hc).elim (fun heq => heq ▸ by decide) fun hc => Text.isBlank_of_isDigit (hall c hc)
      · exact fun c hc => Text.isBlank_of_isDigit (hall c hc)
  rw [readInt64?, hread]
  dsimp only
  rw [Int64.toInt_minValue, Int64.toInt_maxValue, if_pos ⟨v.le_toInt, Int.le_sub_one_of_lt v.toInt_lt⟩, Int64.ofInt_toInt]

end Decimal

namespace Builtin

variable {limits : Limits} {h : Heap}

/-! ### Texts -/

theorem plainText_int (h : Heap) (v : Int64) : (Value.int v).plainText h = intText v := by
  simp [Value.plainText, Value.display, Render.renderInto, Render.emit, Value.unwrap, Value.atomText]

theorem plainText_char (h : Heap) (c : Char) : (Value.char c).plainText h = String.singleton c := by
  simp [Value.plainText, Value.display, Render.renderInto, Render.emit, Value.unwrap, Value.atomText]

/-- What is neither undefined nor a text is given as its text, if the limits admit that. -/
theorem call_string {v : Value} {text : String} (htext : v.plainText h = text)
    (hfits : text.utf8ByteSize ≤ limits.maxString) (hdefined : v ≠ .undefined)
    (hother : ∀ s, v ≠ .string s) : call limits .string [v] h = .ok (.string text) h := by
  have hread : v.plainTextWithin h limits.maxString = .ok text := by
    rw [Value.plainTextWithin_eq, htext, if_pos hfits]
  have hcall : call limits .string [v] h =
      (HeapM.read (fun h => v.plainTextWithin h limits.maxString) >>= fun s => pure (.string s) : HeapM Value) h := by
    cases v <;> first | rfl | exact absurd rfl hdefined | exact absurd rfl (hother _)
  rw [hcall]
  change EStateM.bind _ _ h = _
  rw [EStateM.bind, HeapM.read, hread]
  rfl

theorem decodeLossy_toUTF8 (s : String) : Text.decodeLossy s.toUTF8.data = s := by
  rw [Text.decodeLossy, String.fromUTF8?, dif_pos (show s.toUTF8.IsValidUTF8 from s.isValidUTF8)]
  rfl

/-! ### All of them -/

/-- Conversions undo each other. An integer that is no code of a character gives the second argument of a conversion
to characters, or undefined. -/
theorem call_conversions (limits : Limits) (h : Heap) :
    (∀ v : Int64, (intText v).utf8ByteSize ≤ limits.maxString → ∃ w, call limits .string [.int v] h = .ok w h ∧
      call limits .int [w] h = .ok (.int v) h) ∧
    (∀ s : String, s.utf8ByteSize ≤ limits.maxBytes → s.utf8ByteSize ≤ limits.maxString → ∃ w h',
      call limits .bytes [.string s] h = .ok w h' ∧ call limits .string [w] h' = .ok (.string s) h') ∧
    (∀ c : Char, ∃ w, call limits .int [.char c] h = .ok w h ∧ call limits .char [w] h = .ok (.char c) h) ∧
    (∀ n : Int64, (∃ c : Char, (c.toNat : Int) = n.toInt ∧ call limits .char [.int n] h = .ok (.char c) h ∧
        call limits .int [.char c] h = .ok (.int n) h) ∨
      (∀ c : Char, (c.toNat : Int) ≠ n.toInt) ∧ call limits .char [.int n] h = .ok .undefined h ∧
        ∀ v, call limits .char [.int n, v] h = .ok v h) ∧
    ∀ c : Char, c.utf8Size ≤ limits.maxString → ∃ w, call limits .string [.char c] h = .ok w h ∧
      call limits .char [w] h = .ok (.char c) h := by
  refine ⟨fun v hfits => ?_, fun s hbytes hfits => ?_, fun c => ?_, fun n => ?_, fun c hfits => ?_⟩
  · refine ⟨_, call_string (plainText_int h v) hfits (by simp) (by simp), ?_⟩
    change EStateM.Result.ok (((Decimal.readInt64? (Text.trim (intText v).toList)).map Value.int).getD _) h = _
    rw [Decimal.readInt64?_text]
    rfl
  · have hcall : call limits .bytes [.string s] h = .ok (.bytes h.buffers.size) (h.newBuffer s.toUTF8.data).2 := by
      change (HeapM.ofExcept (limits.checkBytes s.utf8ByteSize) >>= fun _ => HeapM.bytes s.toUTF8.data) h = _
      rw [Limits.checkBytes, if_neg (Nat.not_lt.2 hbytes)]
      rfl
    have htext : (Value.bytes h.buffers.size).plainText (h.newBuffer s.toUTF8.data).2 = s := by
      simpa [Value.plainText_bytes, Heap.newBuffer, Heap.buffer] using decodeLossy_toUTF8 s
    exact ⟨_, _, hcall, call_string htext hfits (by simp) (by simp)⟩
  · refine ⟨_, rfl, ?_⟩
    change EStateM.Result.ok (((Arithmetic.charOf? (Arithmetic.code c).toInt).map Value.char).getD _) h = _
    rw [Arithmetic.charOf?_eq_some_iff.2 (Arithmetic.toInt_code c).symm]
    rfl
  · have hone : call limits .char [.int n] h = .ok (((Arithmetic.charOf? n.toInt).map Value.char).getD .undefined) h := rfl
    have htwo : ∀ v, call limits .char [.int n, v] h = .ok (((Arithmetic.charOf? n.toInt).map Value.char).getD v) h :=
      fun _ => rfl
    cases hchar : Arithmetic.charOf? n.toInt with
    | some c =>
      have hcode := Arithmetic.charOf?_eq_some_iff.1 hchar
      refine .inl ⟨c, hcode, by rw [hone, hchar]; rfl, ?_⟩
      change EStateM.Result.ok (Value.int (Arithmetic.code c)) h = _
      rw [Int64.toInt_inj.1 ((Arithmetic.toInt_code c).trans hcode)]
    | none =>
      refine .inr ⟨fun c hcode => ?_, by rw [hone, hchar]; rfl, fun v => by rw [htwo, hchar]; rfl⟩
      cases hchar.symm.trans (Arithmetic.charOf?_eq_some_iff.2 hcode)
  · refine ⟨_, call_string (plainText_char h c) (by rwa [String.utf8ByteSize_singleton]) (by simp) (by simp), ?_⟩
    change EStateM.Result.ok ((((Value.string (String.singleton c)).toChar?).map Value.char).getD _) h = _
    rw [Value.toChar?, String.toList_singleton]
    rfl

/-- The least integer, and a text and a character of more than one byte. -/
theorem call_conversions_wide : (intText Int64.minValue).utf8ByteSize ≤ 20 ∧ "é€".utf8ByteSize ≤ 5 ∧ '€'.utf8Size ≤ 20 ∧
    ∃ limits : Limits, limits.maxString = 20 ∧ limits.maxBytes = 5 ∧
      (∃ w, call limits .string [.int Int64.minValue] {} = .ok w {} ∧
        call limits .int [w] {} = .ok (.int Int64.minValue) {}) ∧
      (∃ w h', call limits .bytes [.string "é€"] {} = .ok w h' ∧ call limits .string [w] h' = .ok (.string "é€") h') ∧
      ∃ w, call limits .string [.char '€'] {} = .ok w {} ∧ call limits .char [w] {} = .ok (.char '€') {} := by
  have hint : (intText Int64.minValue).utf8ByteSize ≤ 20 := by decide +kernel
  have htext : "é€".utf8ByteSize ≤ 5 := by decide
  have hchar : '€'.utf8Size ≤ 20 := by decide
  obtain ⟨hints, htexts, -, -, hchars⟩ := call_conversions { maxString := 20, maxBytes := 5 } {}
  exact ⟨hint, htext, hchar, _, rfl, rfl, hints _ hint, htexts _ htext (Nat.le_trans htext (by decide)), hchars _ hchar⟩

end Builtin

end ScriptEngine
