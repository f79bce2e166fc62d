import ScriptEngine.Source
import Mathlib.Data.Nat.Find
/-!
# Positions

Files are added to a set and the starts of their lines are recorded, in any order. As long as the positions
last, the ranges of the files follow each other and the starts of lines grow (`FileSet.Built.laid`), which is
what the two binary searches rely on. Main statement: a position belongs to at most one file, and there to one
line and column (`FileSet.Built.locates`).
-/

namespace ScriptEngine

/-! ### Binary search -/

section Search

variable {α : Type} {r : α → α → Prop} {xs : Array α}

/-- Every element is related to those after it. -/
def Ascending (r : α → α → Prop) (xs : Array α) : Prop :=
  ∀ ⦃i j : Nat⦄ ⦃a b : α⦄, i < j → xs[i]? = some a → xs[j]? = some b → r a b

theorem Ascending.push (hxs : Ascending r xs) {x : α} (hx : ∀ a ∈ xs, r a x) : Ascending r (xs.push x) := by
  intro i j a b hij ha hb
  rw [Array.getElem?_push] at ha hb
  split at hb
  · cases hb
    rw [if_neg (by omega)] at ha
    exact hx a (Array.mem_of_getElem? ha)
  · obtain ⟨hlt, -⟩ := Array.getElem?_eq_some_iff.1 hb
    rw [if_neg (by omega)] at ha
    exact hxs hij ha hb

/-- The search keeps the number of elements with the property between its two ends. -/
theorem partitionLoop_eq {p : α → Bool} {cut : Nat} (hcut : ∀ i : Nat, (xs[i]?).any p ↔ i < cut) {base size : Nat}
    (hbase : base ≤ cut) (hsize : cut ≤ base + size) : partitionLoop p xs base size = cut := by
  fun_induction partitionLoop p xs base size with
  | case1 base size _ half mid ih =>
    by_cases hp : (xs[mid]?).any p
    · have hlt := (hcut mid).1 hp
      simp only [hp, ↓reduceDIte, ↓reduceIte] at ih ⊢
      exact ih (by omega) (by omega)
    · have hle := mt (hcut mid).2 hp
      simp only [hp, ↓reduceDIte, ↓reduceIte, Bool.false_eq_true] at ih ⊢
      exact ih hbase (by omega)
  | case2 base size _ hp =>
    have hlt := (hcut base).1 hp
    omega
  | case3 base size _ hp =>
    have hle := mt (hcut base).2 hp
    omega

/-- The search for a bound on a key that grows. -/
theorem lt_partitionPoint_iff {k : α → Nat} (hxs : Ascending (k · < k ·) xs) {n i : Nat} :
    i < partitionPoint (k · ≤ n) xs ↔ ∃ x, xs[i]? = some x ∧ k x ≤ n := by
  have hany : ∀ i : Nat, (xs[i]?).any (k · ≤ n) ↔ ∃ x, xs[i]? = some x ∧ k x ≤ n := by
    intro i
    simp [Option.any_eq_true]
  have hend : ∃ i : Nat, ¬ (xs[i]?).any (k · ≤ n) := ⟨xs.size, by simp⟩
  have hcut : ∀ i : Nat, (xs[i]?).any (k · ≤ n) ↔ i < Nat.find hend := by
    intro i
    refine ⟨fun hi => ?_, fun hi => not_not.1 (Nat.find_min hend hi)⟩
    by_contra hle
    -- The first element above the bound comes before one that is not.
    obtain ⟨b, hb, hbn⟩ := (hany i).1 hi
    obtain ⟨hlt, -⟩ := Array.getElem?_eq_some_iff.1 hb
    obtain ⟨a, ha⟩ : ∃ a, xs[Nat.find hend]? = some a := ⟨_, Array.getElem?_eq_getElem (by omega)⟩
    refine Nat.find_spec hend ((hany _).2 ⟨a, ha, ?_⟩)
    rcases Nat.lt_or_eq_of_le (Nat.le_of_not_lt hle) with h | h
    · exact Nat.le_trans (Nat.le_of_lt (hxs h ha hb)) hbn
    · rw [h, hb] at ha
      cases ha
      exact hbn
  have hle : Nat.find hend ≤ 0 + xs.size := by
    exact Nat.find_min' hend (by simp)
  rw [partitionPoint, partitionLoop_eq hcut (Nat.zero_le _) hle, ← hcut, hany]

end Search

/-! ### Lines of a file -/

namespace SourceFile

variable {f : SourceFile}

/-- The range of a file; the end of the file belongs to it. -/
def Holds (f : SourceFile) (p : Pos) : Prop := f.base ≤ p ∧ p ≤ f.base + f.size

/-- The first line starts with the file, and each other one after the line before it. -/
structure Ruled (f : SourceFile) : Prop where
  first : f.lines[0]? = some 0
  grows : Ascending (· < ·) f.lines

/-- An offset is in a line and at a column of it, both counted from 1. -/
structure At (f : SourceFile) (offset line column : Nat) : Prop where
  line_pos : 1 ≤ line
  column_pos : 1 ≤ column
  start : ∃ start, f.lines[line - 1]? = some start ∧ start + column - 1 = offset
  next : ∀ next, f.lines[line]? = some next → offset < next

theorem Ruled.addLine (hf : f.Ruled) (offset : Nat) : (f.addLine offset).Ruled := by
  rw [SourceFile.addLine]
  split
  · next haccept =>
    simp only [Bool.and_eq_true, Option.all_eq_true, decide_eq_true_eq, Array.back?_eq_getElem?] at haccept
    obtain ⟨hpos, -⟩ := Array.getElem?_eq_some_iff.1 hf.first
    refine ⟨?_, hf.grows.push fun a ha => ?_⟩
    · rw [Array.getElem?_push, if_neg (by omega)]
      exact hf.first
    -- All starts so far are below the new one, since the last of them is.
    · obtain ⟨i, hi⟩ := Array.mem_iff_getElem?.1 ha
      obtain ⟨hlt, -⟩ := Array.getElem?_eq_some_iff.1 hi
      have hlast : f.lines[f.lines.size - 1]? = some f.lines[f.lines.size - 1] := Array.getElem?_eq_getElem _
      have hbelow := haccept.1 _ hlast
      rcases Nat.lt_or_ge i (f.lines.size - 1) with h | h
      · exact Nat.lt_trans (hf.grows h hi hlast) hbelow
      · obtain rfl : i = f.lines.size - 1 := by omega
        cases hi.symm.trans hlast
        exact hbelow
  · exact hf

/-- A position is located in the only line and at the only column that its offset is at. -/
theorem Ruled.at_iff (hf : f.Ruled) {p : Pos} {line column : Nat} :
    f.At (f.offset p) line column ↔ line = (f.locate p).line ∧ column = (f.locate p).column := by
  have hline := fun i => lt_partitionPoint_iff (k := id) hf.grows (n := f.offset p) (i := i)
  obtain ⟨found, hfound⟩ : ∃ found, partitionPoint (· ≤ f.offset p) f.lines = found := ⟨_, rfl⟩
  simp only [id, hfound] at hline
  have hpos : 0 < found := (hline 0).2 ⟨0, hf.first, Nat.zero_le _⟩
  obtain ⟨start, hstart, hle⟩ := (hline (found - 1)).1 (by omega)
  simp only [locate, hfound, if_neg (Nat.ne_of_gt hpos), Array.getD_eq_getD_getElem?, hstart, Option.getD_some]
  constructor
  · rintro ⟨hl, hc, ⟨start', hstart', hsum⟩, hnext⟩
    have hlt := (hline (line - 1)).2 ⟨start', hstart', by omega⟩
    have hge : ¬ line < found := by
      intro hlt
      obtain ⟨next, hnext', hle⟩ := (hline line).1 hlt
      have := hnext next hnext'
      omega
    obtain rfl : line = found := by omega
    cases hstart.symm.trans hstart'
    exact ⟨rfl, by omega⟩
  · rintro ⟨rfl, rfl⟩
    refine ⟨hpos, by omega, ⟨start, hstart, by omega⟩, fun next hnext => ?_⟩
    by_contra hge
    exact Nat.lt_irrefl _ ((hline line).2 ⟨next, hnext, by omega⟩)

end SourceFile

/-! ### Files of a set -/

namespace FileSet

variable {s : FileSet}

/-- The sets that come about: files are added, as long as there is a position left after their end, and lines of
the files are recorded. -/
inductive Built : FileSet → Prop
  | empty : Built {}
  | addFile {s : FileSet} (name : String) (base : Option Pos) (size : Nat) (hs : Built s)
      (hroom : max (base.getD s.base) s.base + size + 1 ≤ Pos.last) : Built (s.addFile name base size)
  | addLine {s : FileSet} (index offset : Nat) (hs : Built s) : Built (s.modifyFile index (·.addLine offset))

/-- The files follow each other without overlap, all before the free base. -/
structure Laid (s : FileSet) : Prop where
  known : 1 ≤ s.base
  file {f : SourceFile} : f ∈ s.files → 1 ≤ f.base ∧ f.base + f.size < s.base ∧ f.Ruled
  follows : Ascending (fun f g => f.base + f.size < g.base) s.files

theorem Laid.addFile (hs : s.Laid) (name : String) {base : Option Pos} {size : Nat}
    (hroom : max (base.getD s.base) s.base + size + 1 ≤ Pos.last) : (s.addFile name base size).Laid := by
  have hknown := hs.known
  have hbase : (s.addFile name base size).base = max (base.getD s.base) s.base + size + 1 := Nat.min_eq_right hroom
  refine ⟨by grind, fun {f} hf => ?_, hs.follows.push fun f hf => ?_⟩
  · rcases Array.mem_push.1 hf with hf | rfl
    · obtain ⟨hpos, hlt, hruled⟩ := hs.file hf
      exact ⟨hpos, by grind, hruled⟩
    · refine ⟨by grind, by grind, rfl, fun i j a b hij ha hb => ?_⟩
      have hj : j < 1 := (Array.getElem?_eq_some_iff.1 hb).1
      omega
  · have := (hs.file hf).2.1
    grind

theorem Laid.addLine (hs : s.Laid) (index offset : Nat) : (s.modifyFile index (·.addLine offset)).Laid := by
  -- Each file is one of before, up to its lines.
  have hfile : ∀ {i : Nat} {f : SourceFile}, (s.modifyFile index (·.addLine offset)).files[i]? = some f →
      ∃ g, s.files[i]? = some g ∧ f.base = g.base ∧ f.size = g.size ∧ (g.Ruled → f.Ruled) := by
    intro i f hf
    simp only [modifyFile, Array.getElem?_modify] at hf
    split at hf
    · obtain ⟨g, hg, rfl⟩ := Option.map_eq_some_iff.1 hf
      refine ⟨g, hg, ?_, ?_, fun h => h.addLine offset⟩ <;> rw [SourceFile.addLine] <;> split <;> rfl
    · exact ⟨f, hf, rfl, rfl, id⟩
  refine ⟨hs.known, fun {f} hf => ?_, fun i j f g hij hf hg => ?_⟩
  · obtain ⟨i, hi⟩ := Array.mem_iff_getElem?.1 hf
    obtain ⟨g, hg, hbase, hsize, hruled⟩ := hfile hi
    obtain ⟨hpos, hlt, h⟩ := hs.file (Array.mem_of_getElem? hg)
    rw [hbase, hsize]
    exact ⟨hpos, hlt, hruled h⟩
  · obtain ⟨f', hf', hbase, hsize, -⟩ := hfile hf
    obtain ⟨g', hg', hbase', -, -⟩ := hfile hg
    rw [hbase, hsize, hbase']
    exact hs.follows hij hf' hg'

theorem Built.laid (hs : s.Built) : s.Laid := by
  induction hs with
  | empty => exact ⟨Nat.le_refl 1, fun hf => by simp at hf, fun _ _ _ _ _ hf => by simp at hf⟩
  | addFile name base size _ hroom ih => exact ih.addFile name hroom
  | addLine index offset _ ih => exact ih.addLine index offset

theorem Laid.fileAt_eq_some_iff (hs : s.Laid) {p : Pos} {f : SourceFile} :
    s.fileAt p = some f ↔ f ∈ s.files ∧ f.Holds p := by
  have hbases : Ascending (fun f g : SourceFile => f.base < g.base) s.files := by
    intro i j f g hij hf hg
    have := hs.follows hij hf hg
    grind
  have hpoint := fun i => lt_partitionPoint_iff hbases (n := p) (i := i)
  rw [fileAt]
  constructor
  · intro h
    split at h
    · split at h
      · cases h
      · next n hn =>
        obtain ⟨hf, hle⟩ := Option.filter_eq_some_iff.1 h
        obtain ⟨f', hf', hbase⟩ := (hpoint n).1 (by omega)
        cases hf.symm.trans hf'
        exact ⟨Array.mem_of_getElem? hf, hbase, of_decide_eq_true hle⟩
    · cases h
  · rintro ⟨hf, hbase, hle⟩
    obtain ⟨i, hi⟩ := Array.mem_iff_getElem?.1 hf
    have hknown : p.isKnown := by
      have := (hs.file hf).1
      simp only [Pos.isKnown, Pos.unknown, bne_iff_ne]
      grind
    have hlt := (hpoint i).2 ⟨f, hi, hbase⟩
    -- The next file starts after the end of this one, so it is not counted.
    have hge : ¬ i + 1 < partitionPoint (fun f : SourceFile => f.base ≤ p) s.files := by
      intro hlt
      obtain ⟨g, hg, hle'⟩ := (hpoint (i + 1)).1 hlt
      have := hs.follows (Nat.lt_succ_self i) hi hg
      grind
    have hcount : partitionPoint (fun f : SourceFile => f.base ≤ p) s.files = i + 1 := by omega
    simp [hknown, hcount, hi, hle]

theorem Laid.locate_position (hs : s.Laid) {f : SourceFile} (hf : f ∈ s.files) {o : Nat} (ho : o ≤ f.size) :
    s.locate (f.position o) = f.locate (f.position o) ∧ f.offset (f.position o) = o := by
  have hpos : f.position o = f.base + o := by rw [SourceFile.position, Nat.min_eq_left ho]
  have hfile : s.fileAt (f.position o) = some f := hs.fileAt_eq_some_iff.2 ⟨hf, by grind, by grind⟩
  rw [locate, hfile, SourceFile.offset]
  exact ⟨rfl, by grind⟩

/-- In a set that was built within the space of positions, ranges follow each other and lines grow; a position
belongs to the one file whose range holds it, and an offset of a file to one line and column. -/
theorem Built.locates (hs : s.Built) : Ascending (fun f g => f.base + f.size < g.base) s.files ∧
    (∀ f ∈ s.files, f.lines[0]? = some 0 ∧ Ascending (· < ·) f.lines) ∧
    (∀ p f, s.fileAt p = some f ↔ f ∈ s.files ∧ f.Holds p) ∧ s.fileAt Pos.unknown = none ∧
    ∀ f ∈ s.files, ∀ o ≤ f.size,
      (s.locate (f.position o)).file = f.name ∧ (s.locate (f.position o)).offset = o ∧
      ∀ line column, f.At o line column ↔
        line = (s.locate (f.position o)).line ∧ column = (s.locate (f.position o)).column := by
  have hlaid := hs.laid
  refine ⟨hlaid.follows, fun f hf => ?_, fun _ _ => hlaid.fileAt_eq_some_iff, rfl, fun f hf o ho => ?_⟩
  · obtain ⟨-, -, hruled⟩ := hlaid.file hf
    exact ⟨hruled.first, hruled.grows⟩
  · obtain ⟨hlocate, hoffset⟩ := hlaid.locate_position hf ho
    obtain ⟨-, -, hruled⟩ := hlaid.file hf
    rw [hlocate]
    refine ⟨rfl, hoffset, fun line column => ?_⟩
    rw [← hruled.at_iff, hoffset]

/-- Two files, the second one asked for inside the first, and a second line in the first. -/
theorem locates_second_line :
    let s := ((({} : FileSet).addFile "main" none 20).modifyFile 0 (·.addLine 7)).addFile "lib" (some 4) 5
    let f : SourceFile := { name := "main", base := 1, size := 20, lines := #[0, 7] }
    s.Built ∧ f ∈ s.files ∧ f.At 8 2 2 ∧
      2 = (s.locate (f.position 8)).line ∧ 2 = (s.locate (f.position 8)).column := by
  have hs := (((Built.empty.addFile "main" none 20 (by decide)).addLine 0 7).addFile "lib" (some 4) 5 (by decide))
  have hat : SourceFile.At { name := "main", base := 1, size := 20, lines := #[0, 7] } 8 2 2 :=
    ⟨by decide, by decide, ⟨7, rfl, rfl⟩, fun _ hnext => by cases hnext⟩
  refine ⟨hs, Array.mem_of_getElem? (i := 0) rfl, hat, ((hs.locates.2.2.2.2 _ ?_ 8 (by decide)).2.2 2 2).1 hat⟩
  exact Array.mem_of_getElem? (i := 0) rfl

end FileSet

end ScriptEngine
