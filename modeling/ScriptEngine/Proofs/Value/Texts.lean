import ScriptEngine.Proofs.Value.Depth
/-!
# Bounded texts

A text is rendered piece by piece, and a bound is checked before each piece is added. Since pieces only make
a text longer, a text is given up iff the whole of it does not fit (`Value.plainTextWithin_eq`). Bytes are given
up by their own number, before they are read as text: reading never makes them fewer (`Text.le_size_decodeLossy`).
-/

namespace ScriptEngine

/-! ### Bytes read as text -/

namespace Text

/-- How many bytes characters take. -/
def sizeOf (cs : List Char) : Nat := (cs.map Char.utf8Size).sum

theorem sizeOf_cons (c : Char) (cs : List Char) : sizeOf (c :: cs) = c.utf8Size + sizeOf cs := List.sum_cons

theorem sizeOf_reverse (cs : List Char) : sizeOf cs.reverse = sizeOf cs := by
  rw [sizeOf, List.map_reverse, List.sum_reverse, sizeOf]

theorem utf8ByteSize_ofList (cs : List Char) : (String.ofList cs).utf8ByteSize = sizeOf cs := by
  induction cs with
  | nil => rfl
  | cons c cs ih =>
    rw [← List.singleton_append, String.ofList_append, String.utf8ByteSize_append, ← String.singleton_eq_ofList,
      String.utf8ByteSize_singleton, ih, List.singleton_append, sizeOf_cons]

/-- The size of a character with a valid code. -/
theorem utf8Size_ofNat {n : Nat} (hn : n.isValidChar) :
    (Char.ofNat n).utf8Size = if n ≤ 0x7f then 1 else if n ≤ 0x7ff then 2 else if n ≤ 0xffff then 3 else 4 := by
  have hval : (Char.ofNat n).val.toNat = n := by
    have h := Char.toNat_ofNat n
    rwa [if_pos hn] at h
  simp only [Char.utf8Size, UInt32.le_iff_toNat_le, hval]
  rfl

theorem utf8Size_replacement : replacement.utf8Size = 3 := rfl

section

variable {b0 b1 b2 b3 : UInt8}

theorem isContinuation_iff : isContinuation b0 = true ↔ 0x80 ≤ b0.toNat ∧ b0.toNat ≤ 0xbf := by
  simp [isContinuation, UInt8.le_iff_toNat_le]

/-- A character of two bytes takes two bytes. -/
theorem utf8Size_two (h0 : (0xc2 ≤ b0 && b0 ≤ 0xdf && isContinuation b1) = true) :
    (Char.ofNat (b0.toNat % 32 * 64 + low b1)).utf8Size = 2 := by
  simp [UInt8.le_iff_toNat_le, isContinuation_iff] at h0
  rw [low, utf8Size_ofNat (by omega)]
  split
  · omega
  · rw [if_pos (by omega)]

/-- One of three bytes takes three; it is no surrogate. -/
theorem utf8Size_three (h0 : startsThree b0 b1 = true) :
    (Char.ofNat ((b0.toNat % 16 * 64 + low b1) * 64 + low b2)).utf8Size = 3 := by
  simp [startsThree, UInt8.le_iff_toNat_le, isContinuation_iff, ← UInt8.toNat_inj] at h0
  rw [low, low, utf8Size_ofNat (by omega), if_neg (by omega), if_neg (by omega), if_pos (by omega)]

/-- One of four bytes takes four. -/
theorem utf8Size_four (h0 : startsFour b0 b1 = true) :
    (Char.ofNat (((b0.toNat % 8 * 64 + low b1) * 64 + low b2) * 64 + low b3)).utf8Size = 4 := by
  simp [startsFour, UInt8.le_iff_toNat_le, isContinuation_iff, ← UInt8.toNat_inj] at h0
  rw [low, low, low, utf8Size_ofNat (by omega), if_neg (by omega), if_neg (by omega),
    if_neg (by omega)]

end

/-- Characters that were read take at least the bytes they were read from. -/
theorem le_sizeOf_decodeInto (read : List Char) (bytes : List UInt8) :
    sizeOf read + bytes.length ≤ sizeOf (decodeInto read bytes) := by
  fun_induction decodeInto read bytes with
  | case1 read => rw [sizeOf_reverse, List.length_nil, Nat.add_zero]
  | case2 read b0 =>
    rw [sizeOf_reverse, Nat.add_comm]
    exact Nat.add_le_add_right (Char.utf8Size_pos _) _
  | case3 read b0 b1 rest hone ih =>
    have hpos := (Char.ofNat b0.toNat).utf8Size_pos
    rw [sizeOf_cons] at ih
    rw [List.length_cons]
    omega
  | case4 read b0 b1 rest _ htwo ih =>
    rw [sizeOf_cons, utf8Size_two htwo] at ih
    simp only [List.length_cons]
    omega
  | case6 read b0 b1 _ _ hthree b2 rest _ ih =>
    rw [sizeOf_cons, utf8Size_three hthree] at ih
    simp only [List.length_cons]
    omega
  | case11 read b0 b1 _ _ _ hfour b2 b3 rest _ _ n ih =>
    rw [sizeOf_cons, utf8Size_four hfour] at ih
    simp only [List.length_cons]
    omega
  -- What is left is replaced; no more than three bytes become one replacement.
  | case5 | case8 | case9 =>
    simp only [sizeOf_reverse, sizeOf_cons, utf8Size_replacement, List.length_cons, List.length_nil]
    omega
  | case7 _ _ _ _ _ _ _ _ _ ih | case10 _ _ _ _ _ _ _ _ _ ih | case12 _ _ _ _ _ _ _ _ _ _ _ _ ih
  | case13 _ _ _ _ _ _ _ _ _ _ _ ih | case14 _ _ _ _ _ _ _ _ ih =>
    simp only [sizeOf_cons, utf8Size_replacement, List.length_cons, List.length_nil] at ih ⊢
    omega

/-- Reading bytes as text never makes them fewer. -/
theorem le_size_decodeLossy (bytes : Array UInt8) : bytes.size ≤ (decodeLossy bytes).utf8ByteSize := by
  rw [decodeLossy]
  split
  · next s hs =>
    rw [String.fromUTF8?] at hs
    split at hs
    · cases hs
      exact Nat.le_refl _
    · cases hs
  · have hle := le_sizeOf_decodeInto [] bytes.toList
    rwa [sizeOf, List.map_nil, List.sum_nil, Nat.zero_add, ← utf8ByteSize_ofList] at hle

end Text

/-! ### Pieces and their bound -/

namespace Render

/-- The first of two ways to add to a text stops where the text does not fit; the second one never stops. -/
def Bounds (most : Nat) (bounded free : String → Option String) : Prop :=
  ∀ out : String, ∃ text, free out = some (out ++ text) ∧ (out.utf8ByteSize ≤ most →
    bounded out = if (out ++ text).utf8ByteSize ≤ most then some (out ++ text) else none)

variable {most : Nat} {h : Heap}

theorem Bounds.skip : Bounds most some some := fun out =>
  ⟨"", by rw [String.append_empty], fun hfits => by rw [String.append_empty, if_pos hfits]⟩

theorem Bounds.bind {f f' g g' : String → Option String} (hf : Bounds most f g) (hf' : Bounds most f' g') :
    Bounds most (fun out => (f out).bind f') fun out => (g out).bind g' := by
  intro out
  obtain ⟨text, hfree, hbounded⟩ := hf out
  obtain ⟨text', hfree', hbounded'⟩ := hf' (out ++ text)
  refine ⟨text ++ text', ?_, fun hfits => ?_⟩
  · dsimp only
    rw [hfree, Option.bind_some, hfree', String.append_assoc]
  · dsimp only
    rw [hbounded hfits, ← String.append_assoc]
    split
    · next hfirst => rw [Option.bind_some, hbounded' hfirst]
    · next hfirst =>
      have hmore : ¬ (out ++ text ++ text').utf8ByteSize ≤ most := by
        rw [String.utf8ByteSize_append]
        omega
      rw [Option.bind_none, if_neg hmore]

theorem bounds_emit (piece : String) : Bounds most (emit (some most) piece) (emit none piece) := by
  refine fun out => ⟨piece, rfl, fun _ => ?_⟩
  rw [emit]
  simp

theorem bounds_separated {α : Type} {item item' : α → String → Option String}
    (hitem : ∀ x, Bounds most (item x) (item' x)) (started : Bool) (xs : List α) :
    Bounds most (separated (some most) item started xs) (separated none item' started xs) := by
  induction xs generalizing started with
  | nil => exact .skip
  | cons x xs ih =>
    have hcomma : Bounds most (fun out => if started then emit (some most) ", " out else some out)
        (fun out => if started then emit none ", " out else some out) := by
      cases started with
      | false => exact .skip
      | true => exact bounds_emit ", "
    exact hcomma.bind ((hitem x).bind (ih true))

/-- A value is rendered within a bound iff all of it fits. -/
theorem bounds_renderInto (fuel : Nat) (path : List Container) (v : Value) :
    Bounds most (renderInto h (some most) fuel path v) (renderInto h none fuel path v) := by
  intro out
  induction fuel generalizing path v out with
  | zero =>
    exact (bounds_emit _).bind (bounds_emit _) out
  | succ fuel ih =>
    rw [renderInto, renderInto]
    generalize v.unwrap = unwrapped
    obtain ⟨errors, core⟩ := unwrapped
    refine Bounds.bind (bounds_emit _) ?_ out
    cases core with
    | array a | frozenArray a =>
      dsimp only
      split
      · exact bounds_emit _
      · exact (bounds_emit _).bind ((bounds_separated (ih _) _ _).bind (bounds_emit _))
    | map a | frozenMap a =>
      dsimp only
      split
      · exact bounds_emit _
      · refine (bounds_emit _).bind ((bounds_separated (fun e => ?_) _ _).bind (bounds_emit _))
        exact (bounds_emit _).bind (ih _ _)
    | _ => exact bounds_emit _

end Render

/-! ### Plain texts -/

namespace Value

/-- A text is always found, and within a bound iff it fits. -/
theorem renderInto_eq_display (h : Heap) (most : Nat) (v : Value) :
    Render.renderInto h none h.depth [] v "" = some (v.display h) ∧
      Render.renderInto h (some most) h.depth [] v "" =
        if (v.display h).utf8ByteSize ≤ most then some (v.display h) else none := by
  have hbounds : Render.Bounds most (Render.renderInto h (some most) h.depth [] v) (Render.renderInto h none h.depth [] v) :=
    Render.bounds_renderInto h.depth [] v
  obtain ⟨text, hfree, hbounded⟩ := hbounds ""
  rw [String.empty_append] at hfree hbounded
  have hdisplay : v.display h = text := by rw [display, hfree, Option.getD_some]
  rw [hdisplay]
  exact ⟨hfree, hbounded (Nat.zero_le _)⟩

theorem plainText_bytes (h : Heap) (a : Addr) : (Value.bytes a).plainText h = Text.decodeLossy (h.buffer a) := by
  rw [plainText, display, Render.renderInto]
  · simp [Render.emit, unwrap, atomText]
  · simp

/-- The plain text of a value is found within a bound iff it fits. -/
theorem plainTextWithin_eq (h : Heap) (most : Nat) (v : Value) : v.plainTextWithin h most =
    if (v.plainText h).utf8ByteSize ≤ most then .ok (v.plainText h) else .error .stringLimit := by
  have hrendered := (v.renderInto_eq_display h most).2
  cases v with
  | string s => rfl
  | bytes a =>
    rw [plainText_bytes]
    unfold plainTextWithin
    dsimp only
    split
    · next hmany =>
      have hlong : ¬ (Text.decodeLossy (h.buffer a)).utf8ByteSize ≤ most := fun hfits =>
        absurd ((Text.le_size_decodeLossy _).trans hfits) (Nat.not_le.2 hmany)
      rw [if_neg hlong]
    · rfl
  | _ =>
    unfold plainTextWithin plainText
    split <;> split <;> simp_all

/-- Bounded rendering gives the full text if it fits and fails if not, and neither depends on the fuel. -/
theorem bounded_text_agrees (h : Heap) (v : Value) :
    (∀ most, v.plainTextWithin h most =
      if (v.plainText h).utf8ByteSize ≤ most then .ok (v.plainText h) else .error .stringLimit) ∧
    (∀ bound fuel, h.depth ≤ fuel →
      Render.renderInto h bound fuel [] v "" = Render.renderInto h bound h.depth [] v "") ∧
    Render.renderInto h none h.depth [] v "" = some (v.display h) :=
  ⟨fun most => v.plainTextWithin_eq h most, fun _ _ hfuel => Render.renderInto_of_depth_le hfuel v "",
    (v.renderInto_eq_display h 0).1⟩

end Value

end ScriptEngine
