/-!
# Source files and positions

All files of a program share one space of positions: each file takes the range from its base to its
base plus its size (the end of the file is a position too), ranges follow each other without
overlap, and position 0 means "unknown". `FileSet.locate` turns a position into a file, a line and a
column; `PositionTable` says which position an instruction of a function came from.
-/

namespace ScriptEngine

/-- An offset in the common space of all files. -/
abbrev Pos := Nat

/-- The position that stands for "unknown". -/
def Pos.unknown : Pos := 0

def Pos.isKnown (p : Pos) : Bool := p != Pos.unknown

/-- The largest position that can be stored. -/
def Pos.last : Pos := 0xFFFFFFFF

/-! ### Resolved positions -/

/-- A position resolved to a file, a line and a column (both counted from 1, 0 when unknown). -/
structure Location where
  file : String := ""
  offset : Nat := 0
  line : Nat := 0
  column : Nat := 0
  deriving Repr, DecidableEq, Inhabited

namespace Location

def isKnown (l : Location) : Bool := l.line > 0

/-- The text `file:line:column`, without the parts that are unknown, and `-` when all are. -/
def text (l : Location) : String :=
  let column := if l.column != 0 then s!":{l.column}" else ""
  let place := if l.isKnown then s!"{l.line}{column}" else ""
  let divider := if l.isKnown && !l.file.isEmpty then ":" else ""
  let whole := l.file ++ divider ++ place
  if whole.isEmpty then "-" else whole

end Location

/-! ### Binary search -/

/-- One half of the search range is dropped per round; `base` is kept on the side where `p` holds. -/
def partitionLoop (p : α → Bool) (xs : Array α) (base size : Nat) : Nat :=
  if 1 < size then
    let half := size / 2
    let mid := base + half
    partitionLoop p xs (if (xs[mid]?).any p then mid else base) (size - half)
  else if (xs[base]?).any p then base + 1 else base
termination_by size
decreasing_by omega

/-- How many elements of `xs` come before the first one without `p`, when those with `p` come first. -/
def partitionPoint (p : α → Bool) (xs : Array α) : Nat :=
  partitionLoop p xs 0 xs.size

/-! ### Files -/

/-- One file: its range starts at `base`, and `lines` holds the offsets at which lines start. -/
structure SourceFile where
  name : String
  base : Pos
  size : Nat
  lines : Array Nat := #[0]
  deriving Repr, DecidableEq, Inhabited

namespace SourceFile

/-- Records the start of a line; one that does not grow, or lies past the end, is left out. -/
def addLine (f : SourceFile) (offset : Nat) : SourceFile :=
  let grows := (f.lines.back?).all (· < offset)
  if grows && offset < f.size then { f with lines := f.lines.push offset } else f

/-- The position of an offset, which is cut at the end of the file. -/
def position (f : SourceFile) (offset : Nat) : Pos := f.base + min offset f.size

/-- The position at which a line (counted from 1) starts. -/
def lineStart (f : SourceFile) (line : Nat) : Pos :=
  match f.lines[line - 1]? with
  | some offset => f.base + offset
  | none => Pos.unknown

def offset (f : SourceFile) (p : Pos) : Nat := p - f.base

/-- Resolves a position of this file: its line is the last one that starts at or before it. -/
def locate (f : SourceFile) (p : Pos) : Location :=
  let offset := f.offset p
  let line := partitionPoint (· ≤ offset) f.lines
  let column := if line = 0 then 0 else offset - f.lines.getD (line - 1) 0 + 1
  { file := f.name, offset, line, column }

end SourceFile

/-- The files of a program, by increasing base, and the first base that is still free. -/
structure FileSet where
  base : Pos := 1
  files : Array SourceFile := #[]
  deriving Repr, DecidableEq, Inhabited

namespace FileSet

/-- Adds a file at the free base, or further on when a larger base is asked for. -/
def addFile (s : FileSet) (name : String) (base : Option Pos) (size : Nat) : FileSet :=
  let base := max (base.getD s.base) s.base
  { base := min Pos.last (base + size + 1)
    files := s.files.push { name, base, size } }

def modifyFile (s : FileSet) (index : Nat) (f : SourceFile → SourceFile) : FileSet :=
  { s with files := s.files.modify index f }

def fileAt (s : FileSet) (p : Pos) : Option SourceFile :=
  if p.isKnown then
    match partitionPoint (fun (f : SourceFile) => f.base ≤ p) s.files with
    | 0 => none
    | n + 1 => s.files[n]?.filter fun f => p ≤ f.base + f.size
  else none

/-- Resolves a position; the unknown location when no file holds it. -/
def locate (s : FileSet) (p : Pos) : Location :=
  match s.fileAt p with
  | some f => f.locate p
  | none => {}

end FileSet

/-! ### Positions of instructions -/

/-- The positions of a function's instructions: offsets in the code, increasing, with the source
position of each. -/
structure PositionTable where
  entries : Array (Nat × Pos) := #[]
  deriving Repr, DecidableEq, Inhabited

namespace PositionTable

/-- Places an entry among the later ones of a sorted list, in place of one with the same offset. -/
def place (offset : Nat) (pos : Pos) : List (Nat × Pos) → List (Nat × Pos)
  | [] => [(offset, pos)]
  | (o, p) :: rest =>
    if offset < o then (offset, pos) :: (o, p) :: rest
    else if offset = o then (offset, pos) :: rest
    else (o, p) :: place offset pos rest

/-- Sets the position of an offset. Offsets usually arrive in increasing order. -/
def insert (t : PositionTable) (offset : Nat) (pos : Pos) : PositionTable :=
  if (t.entries.back?).all (·.1 < offset) then { entries := t.entries.push (offset, pos) }
  else { entries := (place offset pos t.entries.toList).toArray }

/-- The position of the instruction at `offset`, or of the closest one before it. -/
def find (t : PositionTable) (offset : Nat) : Pos :=
  match t.entries.findRev? (·.1 ≤ offset) with
  | some (_, pos) => pos
  | none => Pos.unknown

end PositionTable

end ScriptEngine
