import Mathlib
import ScriptEngine.Bytes.Reader
import ScriptEngine.Bytes.Writer
import ScriptEngine.Proofs.BigEndian
/-!
# Reading back what was written

`r.Reads bytes a` says that the reader `r`, with `bytes` ahead of it, gives `a` and moves behind
these bytes. It is closed under sequencing, and every writer has a reader that reads what it wrote,
as long as numbers and lengths fit into their widths.
-/

namespace ScriptEngine

variable {rest : List UInt8} {r : Reader α} {a : α}

variable {c : Cursor} {bytes : List UInt8} {n : Nat}

/-! ### Cursors -/

/-- The bytes that are still to come. -/
def Cursor.ahead (c : Cursor) : List UInt8 := c.data.toList.drop c.offset

/-- The cursor `n` bytes further on. -/
def Cursor.skip (c : Cursor) (n : Nat) : Cursor := { c with offset := c.offset + n }

theorem Cursor.ahead_skip (h : c.ahead = bytes ++ rest) : (c.skip bytes.length).ahead = rest := by
  unfold Cursor.ahead Cursor.skip at *
  rw [← List.drop_drop, h, List.drop_left]

theorem Cursor.skip_skip (c : Cursor) (m n : Nat) : (c.skip m).skip n = c.skip (m + n) := by
  simp [Cursor.skip, Nat.add_assoc]

theorem Cursor.length_le_remaining (h : c.ahead = bytes ++ rest) :
    bytes.length ≤ c.remaining := by
  have hlen := congrArg List.length h
  simp only [ahead, List.length_drop, Array.length_toList, List.length_append] at hlen
  unfold remaining
  omega

theorem Cursor.extract_ahead (h : c.ahead = bytes ++ rest) :
    c.data.extract c.offset (c.offset + bytes.length) = bytes.toArray := by
  apply Array.toList_inj.1
  rw [Array.toList_extract, List.extract_eq_take_drop, Nat.add_sub_cancel_left]
  show List.take bytes.length c.ahead = _
  rw [h, List.take_left]

/-! ### Readers -/

namespace Reader

/-- With `bytes` ahead, the reader gives `a` and moves behind them. -/
def Reads (r : Reader α) (bytes : List UInt8) (a : α) : Prop :=
  ∀ (c : Cursor) (rest : List UInt8), c.ahead = bytes ++ rest → r c = .ok a (c.skip bytes.length)

theorem Reads.pure (a : α) : Reads (pure a) [] a := fun _ _ _ => rfl

theorem Reads.bind {f : α → Reader β} {more : List UInt8} {b : β}
    (hr : r.Reads bytes a) (hf : (f a).Reads more b) : (r >>= f).Reads (bytes ++ more) b := by
  intro c rest h
  rw [List.append_assoc] at h
  have hnext := hf _ rest (Cursor.ahead_skip h)
  show EStateM.bind r f c = _
  rw [EStateM.bind, hr c _ h]
  show f a _ = _
  rw [hnext, Cursor.skip_skip, List.length_append]

theorem Reads.map {f : α → β} (hr : r.Reads bytes a) :
    Reads (do let x ← r; return f x) bytes (f a) := by
  rw [← List.append_nil bytes]
  exact hr.bind (Reads.pure (f a))

theorem reads_take (bytes : List UInt8) : Reads (take bytes.length) bytes bytes.toArray := by
  intro c rest h
  rw [take, if_neg (Nat.not_lt.2 (Cursor.length_le_remaining h)), Cursor.extract_ahead h]
  rfl

theorem reads_number {width : Nat} (h : n < capacity width) : Reads (number width) (bigEndian width n) n := by
  have htake := reads_take (bigEndian width n)
  rw [length_bigEndian] at htake
  have := htake.map (f := fun bytes => ofBigEndian bytes.toList)
  rwa [ofBigEndian_bigEndian h] at this

theorem reads_u8 (h : n < capacity 1) : Reads u8 (Bytes.u8 n) n := reads_number h

theorem reads_u16 (h : n < capacity 2) : Reads u16 (Bytes.u16 n) n := reads_number h

theorem reads_u32 (h : n < capacity 4) : Reads u32 (Bytes.u32 n) n := reads_number h

theorem reads_u64 (n : UInt64) : Reads u64 (Bytes.u64 n.toNat) n.toNat :=
  reads_number n.toNat_lt

theorem reads_i64 (v : Int64) : Reads i64 (Bytes.i64 v) v := by
  have := (reads_u64 v.toUInt64).map (f := fun n => n.toUInt64.toInt64)
  rwa [show v.toUInt64.toNat.toUInt64 = v.toUInt64 from UInt64.ofNat_toNat] at this

theorem reads_f64 (v : Float) : Reads f64 (Bytes.f64 v) v := by
  have := (reads_u64 v.toBits).map (f := fun n => Float.ofBits n.toUInt64)
  rwa [show v.toBits.toNat.toUInt64 = v.toBits from UInt64.ofNat_toNat, Float.ofBits_toBits] at this

theorem reads_blob (bytes : List UInt8) (h : bytes.length < capacity 4) :
    Reads blob (Bytes.blob bytes) bytes.toArray :=
  (reads_u32 h).bind (reads_take bytes)

theorem fromUTF8?_ofString (s : String) : String.fromUTF8? ⟨(Bytes.ofString s).toArray⟩ = some s := by
  have hbytes : (⟨(Bytes.ofString s).toArray⟩) = s.toByteArray := by
    simp [Bytes.ofString, String.toUTF8]
  rw [hbytes, String.fromUTF8?, dif_pos s.isValidUTF8]
  rfl

theorem reads_text {s : String} (h : (Bytes.ofString s).length < capacity 4) : Reads text (Bytes.text s) s := by
  rw [Bytes.text, ← List.append_nil (Bytes.blob (Bytes.ofString s))]
  refine (reads_blob _ h).bind ?_
  rw [fromUTF8?_ofString]
  exact Reads.pure s

/-- Items that are read one after the other follow those already read. -/
theorem reads_repeated {item : Reader α} {write : α → List UInt8} {items : List α}
    (h : ∀ x ∈ items, item.Reads (write x) x) (done : Array α) :
    Reads (repeated item items.length done) (items.flatMap write) (done ++ items) := by
  induction items generalizing done with
  | nil => simpa [repeated] using Reads.pure done
  | cons x rest ih =>
    refine (h x (by simp)).bind ?_
    have := ih (fun y hy => h y (by simp [hy])) (done.push x)
    rwa [show done.push x ++ rest = done ++ (x :: rest) by simp] at this

end Reader

end ScriptEngine
