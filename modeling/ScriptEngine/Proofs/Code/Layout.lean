import ScriptEngine.Compiler.State
/-!
# The layout of code

Code whose jumps are still structured: one that skips a piece of code, one that chooses between two
pieces, a loop, and the jumps that leave a loop or start its next round. `Code.lines` lays such code
out as instructions with the offsets that jumps go to. A compilation reaches the same code in
another way: it appends jumps without a target and sets the targets later. The lemmas here say that
setting the targets of a piece of code gives its layout.
-/

namespace ScriptEngine

open Instruction Opcode

/-- An instruction in its place, with the position that it comes from. -/
structure Line where
  pos : Pos
  offset : Nat
  op : Opcode
  operands : List Nat
  deriving Repr, DecidableEq, Inhabited

/-- The bytes of an instruction. -/
def Line.bytes (l : Line) : List UInt8 := encode l.op l.operands

/-- The bytes of instructions in turn. -/
def bytesOf (ls : List Line) : List UInt8 := ls.flatMap Line.bytes

/-- A jump that looks at the value on top of the stack. -/
inductive Branch where
  | onFalsy
  | logicalAnd
  | logicalOr
  deriving Repr, DecidableEq, Inhabited

/-- The opcode of a jump. -/
def Branch.op : Branch → Opcode
  | .onFalsy => .jumpFalsy
  | .logicalAnd => .andJump
  | .logicalOr => .orJump

/-- Code with structured jumps. -/
inductive Code where
  | nop
  /-- An instruction that is not a jump. -/
  | instr (pos : Pos) (op : Opcode) (operands : List Nat)
  | seq (a b : Code)
  /-- Skips the body, depending on the value on top of the stack. -/
  | skip (pos : Pos) (branch : Branch) (body : Code)
  /-- Takes a value off the stack and does one of two things. -/
  | choose (pos : Pos) (yes no : Code)
  /-- A loop. After the head, if it tests, a value is taken off the stack, and the loop ends if it is
  false. The code after the body is run before the next round. -/
  | loop (pos : Pos) (head : Code) (tests : Bool) (body post : Code)
  /-- Ends the innermost loop, or starts its next round. -/
  | leave (pos : Pos) (isBreak : Bool)
  deriving Repr, DecidableEq, Inhabited

namespace Code

/-- The length of a jump. -/
def jumpLength : Nat := 5

/-- The length of the test that may end a loop. -/
def testLength : Bool → Nat
  | true => jumpLength
  | false => 0

/-- The test that may end a loop. -/
def testLines (pos : Pos) (offset out : Nat) : Bool → List Line
  | true => [⟨pos, offset, .jumpFalsy, [out]⟩]
  | false => []

/-- How many bytes the code takes. -/
@[simp]
def size : Code → Nat
  | nop => 0
  | instr _ op _ => op.length
  | seq a b => a.size + b.size
  | skip _ _ body => jumpLength + body.size
  | choose _ yes no => jumpLength + yes.size + jumpLength + no.size
  | loop _ head tests body post =>
    head.size + testLength tests + body.size + post.size + jumpLength
  | leave _ _ => jumpLength

/-- The instructions of code that starts at an offset. What leaves a loop around it goes to `stop`,
and what starts the next round of that loop goes to `next`. -/
@[simp]
def lines : Code → (start stop next : Nat) → List Line
  | nop, _, _, _ => []
  | instr pos op operands, start, _, _ => [⟨pos, start, op, operands⟩]
  | seq a b, start, stop, next => a.lines start stop next ++ b.lines (start + a.size) stop next
  | skip pos branch body, start, stop, next =>
    ⟨pos, start, branch.op, [start + jumpLength + body.size]⟩ ::
      body.lines (start + jumpLength) stop next
  | choose pos yes no, start, stop, next =>
    let done := start + jumpLength + yes.size
    let other := done + jumpLength
    ⟨pos, start, .jumpFalsy, [other]⟩ :: (yes.lines (start + jumpLength) stop next ++
      ⟨pos, done, .jump, [other + no.size]⟩ :: no.lines other stop next)
  | loop pos head tests body post, start, stop, next =>
    let test := start + head.size
    let inside := test + testLength tests
    let again := inside + body.size
    let last := again + post.size
    let out := last + jumpLength
    head.lines start stop next ++ (testLines pos test out tests ++
      (body.lines inside out again ++ (post.lines again stop next ++ [⟨pos, last, .jump, [start]⟩])))
  | leave pos isBreak, start, stop, next => [⟨pos, start, .jump, [if isBreak then stop else next]⟩]

/-- Every instruction that is not a jump has a property. -/
def All (P : Opcode → List Nat → Prop) : Code → Prop
  | nop | leave _ _ => True
  | instr _ op operands => P op operands
  | seq a b => a.All P ∧ b.All P
  | skip _ _ body => body.All P
  | choose _ yes no => yes.All P ∧ no.All P
  | loop _ head _ body post => head.All P ∧ body.All P ∧ post.All P

/-- The offsets of the jumps that leave the loop around the code, or of those that start its next
round, the last one first. -/
@[simp]
def exits (isBreak : Bool) : Code → (start : Nat) → List Nat
  | nop, _ | instr _ _ _, _ => []
  | seq a b, start => b.exits isBreak (start + a.size) ++ a.exits isBreak start
  | skip _ _ body, start => body.exits isBreak (start + jumpLength)
  | choose _ yes no, start =>
    no.exits isBreak (start + jumpLength + yes.size + jumpLength) ++
      yes.exits isBreak (start + jumpLength)
  | loop _ head tests body post, start =>
    post.exits isBreak (start + head.size + testLength tests + body.size) ++
      head.exits isBreak start
  | leave _ b, start => if b = isBreak then [start] else []

theorem All.imp {P Q : Opcode → List Nat → Prop} {c : Code} (h : c.All P)
    (himp : ∀ op operands, P op operands → Q op operands) : c.All Q := by
  induction c with
  | nop | leave => trivial
  | instr pos op operands => exact himp op operands h
  | seq a b iha ihb => exact ⟨iha h.1, ihb h.2⟩
  | skip pos branch body ih => exact ih h
  | choose pos yes no ihy ihn => exact ⟨ihy h.1, ihn h.2⟩
  | loop pos head tests body post ihh ihb ihp => exact ⟨ihh h.1, ihb h.2.1, ihp h.2.2⟩

theorem All.and {P Q : Opcode → List Nat → Prop} {c : Code} (hp : c.All P) (hq : c.All Q) :
    c.All fun op operands => P op operands ∧ Q op operands := by
  induction c with
  | nop | leave => trivial
  | instr pos op operands => exact ⟨hp, hq⟩
  | seq a b iha ihb => exact ⟨iha hp.1 hq.1, ihb hp.2 hq.2⟩
  | skip pos branch body ih => exact ih hp hq
  | choose pos yes no ihy ihn => exact ⟨ihy hp.1 hq.1, ihn hp.2 hq.2⟩
  | loop pos head tests body post ihh ihb ihp =>
    exact ⟨ihh hp.1 hq.1, ihb hp.2.1 hq.2.1, ihp hp.2.2 hq.2.2⟩

end Code

/-! ### Sizes -/

theorem bytesOf_nil : bytesOf [] = [] := rfl

theorem bytesOf_append (a b : List Line) : bytesOf (a ++ b) = bytesOf a ++ bytesOf b := by
  simp [bytesOf]

theorem bytesOf_cons (l : Line) (ls : List Line) : bytesOf (l :: ls) = l.bytes ++ bytesOf ls := rfl

theorem Instruction.length_encodeOperands (ws ns : List Nat) (n : Nat) :
    ws.foldl (· + ·) n = n + (encodeOperands ws ns).length := by
  induction ws generalizing ns n with
  | nil => cases ns <;> rfl
  | cons w ws ih =>
    cases ns with
    | nil => simp [encodeOperands, ih [], Nat.add_assoc]
    | cons k ns => simp [encodeOperands, ih ns, Nat.add_assoc]

@[simp]
theorem Instruction.length_encode (op : Opcode) (operands : List Nat) : (encode op operands).length = op.length := by
  rw [encode, List.length_cons, length, operandBytes, length_encodeOperands _ operands]
  omega

@[simp]
theorem Line.length_bytes (l : Line) : l.bytes.length = l.op.length := length_encode _ _

@[simp]
theorem Branch.length_op (b : Branch) : b.op.length = Code.jumpLength := by
  cases b <;> rfl

theorem Opcode.length_jump : jump.length = Code.jumpLength := rfl

theorem Opcode.length_jumpFalsy : jumpFalsy.length = Code.jumpLength := rfl

namespace Code

@[simp]
theorem length_testLines (pos : Pos) (offset out : Nat) (tests : Bool) :
    (bytesOf (testLines pos offset out tests)).length = testLength tests := by
  cases tests <;> rfl

@[simp]
theorem length_bytesOf_lines (c : Code) (start stop next : Nat) :
    (bytesOf (c.lines start stop next)).length = c.size := by
  induction c generalizing start stop next with
  | nop => rfl
  | instr pos op operands => simp [lines, size, bytesOf]
  | seq a b iha ihb => simp [lines, size, bytesOf_append, iha, ihb]
  | skip pos branch body ih => simp [lines, size, bytesOf_cons, ih]
  | choose pos yes no ihy ihn =>
    simp only [lines, size, bytesOf_cons, bytesOf_append, List.length_append, Line.length_bytes, ihy, ihn,
      length_jump, length_jumpFalsy]
    omega
  | loop pos head tests body post ihh ihb ihp =>
    simp only [lines, size, bytesOf_append, List.length_append, length_testLines, ihh, ihb, ihp]
    simp only [bytesOf_cons, List.length_append, Line.length_bytes, length_jump]
    simp only [bytesOf_nil, List.length_nil]
    omega
  | leave pos isBreak => simp [lines, size, bytesOf, length_jump]

end Code

/-! ### Setting the targets of jumps -/

namespace Draft

theorem toList_overwrite {code : Array UInt8} {pre old new post : List UInt8}
    (hcode : code.toList = pre ++ (old ++ post)) (hlength : old.length = new.length) :
    (overwrite code pre.length new).toList = pre ++ (new ++ post) := by
  induction new generalizing code pre old with
  | nil =>
    obtain rfl := List.length_eq_zero_iff.1 hlength
    exact hcode
  | cons b rest ih =>
    obtain ⟨a, old, rfl⟩ := List.exists_cons_of_length_eq_add_one hlength
    have hset : (code.setIfInBounds pre.length b).toList = (pre ++ [b]) ++ (old ++ post) := by
      rw [Array.toList_setIfInBounds, hcode]
      simp
    have := ih hset (by simpa using hlength)
    rw [overwrite]
    simpa using this

/-- The draft with other code. -/
def withCode (d : Draft) (bytes : List UInt8) : Draft := { d with code := bytes.toArray }

theorem patch_withCode (d : Draft) (pre post : List UInt8) (op : Opcode) (old target : Nat) :
    (d.withCode (pre ++ (encode op [old] ++ post))).patch pre.length target =
      d.withCode (pre ++ (encode op [target] ++ post)) := by
  have hop : (pre ++ (encode op [old] ++ post)).toArray[pre.length]?.bind ofByte? =
      some op := by
    simp [encode]
  have hnew : overwrite (pre ++ (encode op [old] ++ post)).toArray pre.length
      (encode op [target]) = (pre ++ (encode op [target] ++ post)).toArray := by
    apply Array.toList_inj.1
    apply toList_overwrite rfl
    simp
  rw [patch]
  simp only [withCode, hop, hnew]

theorem patchAll_append (d : Draft) (xs ys : List Nat) (target : Nat) :
    d.patchAll (xs ++ ys) target = (d.patchAll xs target).patchAll ys target := by
  simp [patchAll]

/-- Setting the targets of the jumps that leave a loop, or of those that start its next round, gives
the layout with that target. -/
theorem patchAll_exits (c : Code) (isBreak : Bool) (target : Nat) (d : Draft) (pre post : List UInt8)
    (stop next : Nat) :
    (d.withCode (pre ++ (bytesOf (c.lines pre.length stop next) ++ post))).patchAll
        (c.exits isBreak pre.length) target =
      d.withCode (pre ++ (bytesOf (c.lines pre.length (bif isBreak then target else stop)
        (bif isBreak then next else target)) ++ post)) := by
  induction c generalizing pre post stop next with
  | nop | instr => rfl
  | seq a b iha ihb =>
    have hb := ihb (pre ++ bytesOf (a.lines pre.length stop next)) post stop next
    have ha := iha pre (bytesOf (b.lines (pre.length + a.size) (bif isBreak then target else stop)
      (bif isBreak then next else target)) ++ post) stop next
    simp only [List.length_append, Code.length_bytesOf_lines, List.append_assoc] at ha hb
    simp only [Code.lines, Code.exits, bytesOf_append, patchAll_append, List.append_assoc, hb, ha]
  | skip pos branch body ih =>
    have h := ih (pre ++ encode branch.op [pre.length + Code.jumpLength + body.size]) post
      stop next
    simp only [List.length_append, length_encode, Branch.length_op, List.append_assoc] at h
    simp only [Code.lines, Code.exits, bytesOf_cons, Line.bytes, List.append_assoc, h]
  | choose pos yes no ihy ihn =>
    let done := pre.length + Code.jumpLength + yes.size
    let other := done + Code.jumpLength
    let front := pre ++ encode .jumpFalsy [other]
    let middle := encode .jump [other + no.size]
    have hn := ihn (front ++ (bytesOf (yes.lines (pre.length + Code.jumpLength) stop next) ++ middle)) post
      stop next
    have hy := ihy front (middle ++ (bytesOf (no.lines other (bif isBreak then target else stop)
      (bif isBreak then next else target)) ++ post)) stop next
    simp only [front, middle, other, done, List.length_append, length_encode,
      length_jumpFalsy, length_jump, Code.length_bytesOf_lines, ← Nat.add_assoc,
      List.append_assoc] at hn hy
    simp only [Code.lines, Code.exits, bytesOf_cons, bytesOf_append, Line.bytes, patchAll_append,
      List.append_assoc, hn, hy]
  | loop pos head tests body post' ihh ihb ihp =>
    let test := pre.length + head.size
    let inside := test + Code.testLength tests
    let again := inside + body.size
    let last := again + post'.size
    let out := last + Code.jumpLength
    let middle := bytesOf (Code.testLines pos test out tests) ++ bytesOf (body.lines inside out again)
    let back := encode .jump [pre.length]
    have hp := ihp (pre ++ (bytesOf (head.lines pre.length stop next) ++ middle)) (back ++ post) stop next
    have hh := ihh pre (middle ++ (bytesOf (post'.lines again (bif isBreak then target else stop)
      (bif isBreak then next else target)) ++ (back ++ post))) stop next
    simp only [middle, back, out, last, again, inside, test, List.length_append, Code.length_testLines,
      Code.length_bytesOf_lines, ← Nat.add_assoc, List.append_assoc] at hp hh
    simp only [Code.lines, Code.exits, bytesOf_append, bytesOf_cons, bytesOf_nil, Line.bytes,
      patchAll_append, List.append_assoc, List.nil_append, hp, hh]
  | leave pos b =>
    have h := patch_withCode d pre post .jump (bif b then stop else next) target
    cases b <;> cases isBreak
    · exact h
    · rfl
    · rfl
    · exact h

end Draft

/-! ### Appending code -/

/-- Notes the positions of instructions. -/
def PositionTable.mark (t : PositionTable) (ls : List Line) : PositionTable :=
  ls.foldl (fun t l => t.insert l.offset l.pos) t

theorem PositionTable.mark_append (t : PositionTable) (a b : List Line) : t.mark (a ++ b) = (t.mark a).mark b := by
  simp [mark]

/-- The places of instructions do not depend on where a loop around them ends. -/
theorem Code.places_lines (c : Code) (start stop next stop' next' : Nat) :
    (c.lines start stop next).map (fun l => (l.offset, l.pos)) =
      (c.lines start stop' next').map (fun l => (l.offset, l.pos)) := by
  induction c generalizing start stop next stop' next' with
  | nop | instr | leave => rfl
  | seq a b iha ihb =>
    simp only [lines, List.map_append]
    rw [iha _ stop next stop' next', ihb _ stop next stop' next']
  | skip pos branch body ih =>
    simp only [lines, List.map_cons]
    rw [ih _ stop next stop' next']
  | choose pos yes no ihy ihn =>
    simp only [lines, List.map_cons, List.map_append]
    rw [ihy _ stop next stop' next', ihn _ stop next stop' next']
  | loop pos head tests body post ihh ihb ihp =>
    simp only [lines, List.map_cons, List.map_append]
    rw [ihh _ stop next stop' next', ihp _ stop next stop' next']

theorem PositionTable.mark_lines (t : PositionTable) (c : Code) (start stop next stop' next' : Nat) :
    t.mark (c.lines start stop next) = t.mark (c.lines start stop' next') := by
  have hplaces : ∀ ls : List Line, t.mark ls =
      (ls.map fun l => (l.offset, l.pos)).foldl (fun t e => t.insert e.1 e.2) t := by
    intro ls
    rw [mark, List.foldl_map]
  rw [hplaces, hplaces, Code.places_lines c start stop next stop' next']

/-- The loops that are open after code: the innermost one has more jumps that leave it. -/
def Code.openLoops (c : Code) (start : Nat) : List LoopExits → List LoopExits
  | [] => []
  | e :: outer =>
    { breaks := c.exits true start ++ e.breaks
      continues := c.exits false start ++ e.continues } :: outer

/-- The draft with code at its end whose jumps out of loops have no target yet. -/
def Draft.plus (d : Draft) (c : Code) : Draft :=
  { d with
    code := (d.code.toList ++ bytesOf (c.lines d.code.size 0 0)).toArray
    positions := d.positions.mark (c.lines d.code.size 0 0)
    loops := c.openLoops d.code.size d.loops }

namespace Draft

section

variable (d : Draft)

@[simp]
theorem plus_kind (c : Code) : (d.plus c).kind = d.kind := rfl

@[simp]
theorem size_plus (c : Code) : (d.plus c).code.size = d.code.size + c.size := by
  simp [plus]

@[simp]
theorem isEmpty_loops_plus (c : Code) : (d.plus c).loops.isEmpty = d.loops.isEmpty := by
  unfold plus Code.openLoops
  cases d.loops <;> rfl

@[simp]
theorem plus_nop : d.plus .nop = d := by
  obtain ⟨kind, code, positions, loops⟩ := d
  cases loops <;> simp [plus, Code.openLoops, Code.lines, Code.exits, bytesOf, PositionTable.mark]

theorem plus_seq (a b : Code) : d.plus (a.seq b) = (d.plus a).plus b := by
  obtain ⟨kind, code, positions, loops⟩ := d
  cases loops <;>
    simp [plus, Code.openLoops, Code.lines, Code.exits, bytesOf_append, PositionTable.mark_append]

theorem emit_eq_plus (pos : Pos) (op : Opcode) (operands : List Nat) :
    d.emit pos op operands = d.plus (.instr pos op operands) := by
  obtain ⟨kind, code, positions, loops⟩ := d
  cases loops <;>
    simp [plus, Code.openLoops, Code.lines, Code.exits, bytesOf, PositionTable.mark, emit, mark, append,
      Line.bytes, ← Array.toList_inj]

/-- A jump over code: its target is set when the code is there. -/
theorem plus_skip (pos : Pos) (branch : Branch) (body : Code) :
    ((d.plus (.instr pos branch.op [0])).plus body).patch d.code.size
        ((d.plus (.instr pos branch.op [0])).plus body).code.size = d.plus (.skip pos branch body) := by
  have h := patch_withCode ((d.plus (.instr pos branch.op [0])).plus body) d.code.toList
    (bytesOf (body.lines (d.code.size + Code.jumpLength) 0 0)) branch.op 0
    (d.code.size + Code.jumpLength + body.size)
  have hsize : ((d.plus (.instr pos branch.op [0])).plus body).code.size =
      d.code.size + Code.jumpLength + body.size := by
    simp [Code.size]
  rw [hsize]
  obtain ⟨kind, code, positions, loops⟩ := d
  cases loops <;>
    simpa [plus, withCode, bytesOf_cons, bytesOf_nil, Line.bytes, Code.openLoops, PositionTable.mark] using h

/-- The first alternative ends with a jump over the second one. -/
theorem plus_choose (pos : Pos) (yes no : Code) :
    ((d.plus (.skip pos .onFalsy (yes.seq (.instr pos .jump [0])))).plus no).patch
        (d.code.size + Code.jumpLength + yes.size)
        ((d.plus (.skip pos .onFalsy (yes.seq (.instr pos .jump [0])))).plus no).code.size =
      d.plus (.choose pos yes no) := by
  let done := d.code.size + Code.jumpLength + yes.size
  let other := done + Code.jumpLength
  let front := d.code.toList ++ (encode .jumpFalsy [other] ++
    bytesOf (yes.lines (d.code.size + Code.jumpLength) 0 0))
  have h := patch_withCode ((d.plus (.skip pos .onFalsy (yes.seq (.instr pos .jump [0])))).plus no) front
    (bytesOf (no.lines other 0 0)) .jump 0 (other + no.size)
  obtain ⟨kind, code, positions, loops⟩ := d
  cases loops <;>
    simpa [plus, withCode, bytesOf_cons, bytesOf_append, bytesOf_nil, Line.bytes,
      Code.openLoops, PositionTable.mark, front, other, done, length_jump,
      length_jumpFalsy, Branch.op, Nat.add_assoc] using h

end

/-- The test of a loop whose target is not set yet. -/
def openTest (pos : Pos) : Bool → Code
  | true => .instr pos .jumpFalsy [0]
  | false => .nop

/-- The draft inside a loop that starts with some code. -/
def enterLoop (d : Draft) (start : Code) : Draft :=
  { d.plus start with loops := {} :: (d.plus start).loops }

/-- The draft after a loop whose body ends here. -/
def leaveLoop (d : Draft) : Draft := { d with loops := d.loops.tail }

/-- Sets the target of the test of a loop. -/
def closeTest (d : Draft) (offset target : Nat) : Bool → Draft
  | true => d.patch offset target
  | false => d

theorem closeTest_withCode (d : Draft) (pre post : List UInt8) (pos : Pos) (target : Nat) (tests : Bool) :
    closeTest (d.withCode (pre ++ (bytesOf (Code.testLines pos pre.length 0 tests) ++ post))) pre.length
        target tests =
      d.withCode (pre ++ (bytesOf (Code.testLines pos pre.length target tests) ++ post)) := by
  cases tests with
  | false => rfl
  | true =>
    have h := patch_withCode d pre post .jumpFalsy 0 target
    simpa [closeTest, Code.testLines, bytesOf_cons, bytesOf_nil, Line.bytes] using h

theorem lines_openTest (pos : Pos) (start : Nat) (tests : Bool) :
    (openTest pos tests).lines start 0 0 = Code.testLines pos start 0 tests := by
  cases tests <;> rfl

@[simp]
theorem size_openTest (pos : Pos) (tests : Bool) : (openTest pos tests).size = Code.testLength tests := by
  cases tests <;> rfl

@[simp]
theorem exits_openTest (pos : Pos) (tests isBreak : Bool) (start : Nat) :
    (openTest pos tests).exits isBreak start = [] := by
  cases tests <;> rfl

@[simp]
theorem size_enterLoop (d : Draft) (c : Code) : (d.enterLoop c).code.size = d.code.size + c.size := by
  simp [enterLoop]

theorem mark_testLines (t : PositionTable) (pos : Pos) (offset out out' : Nat) (tests : Bool) :
    t.mark (Code.testLines pos offset out tests) = t.mark (Code.testLines pos offset out' tests) := by
  cases tests <;> rfl

theorem mark_loop (t : PositionTable) (pos : Pos) (head : Code) (tests : Bool) (body post : Code)
    (start stop next : Nat) :
    t.mark ((Code.loop pos head tests body post).lines start stop next) =
      ((((t.mark (head.lines start stop next)).mark
        (Code.testLines pos (start + head.size) 0 tests)).mark
        (body.lines (start + head.size + Code.testLength tests) 0 0)).mark
        (post.lines (start + head.size + Code.testLength tests + body.size) stop next)).mark
        [⟨pos, start + head.size + Code.testLength tests + body.size + post.size, .jump, [start]⟩] := by
  simp only [Code.lines, PositionTable.mark_append]
  rw [mark_testLines _ _ _ _ 0, PositionTable.mark_lines _ body _ _ _ 0 0]

/-- A loop: its jumps go to what comes after it, and to the start of its next round. -/
theorem plus_loop (d : Draft) (pos : Pos) (head : Code) (tests : Bool) (body post : Code)
    {inner closed : Draft} (hinner : inner = (d.enterLoop (head.seq (openTest pos tests))).plus body)
    (hclosed : closed = ((inner.leaveLoop).plus post).plus (.instr pos .jump [d.code.size])) :
    ((closed.closeTest (d.code.size + head.size) closed.code.size tests).patchAll
        (inner.loops.headD {}).breaks closed.code.size).patchAll (inner.loops.headD {}).continues
        inner.code.size = d.plus (.loop pos head tests body post) := by
  let test := d.code.size + head.size
  let inside := test + Code.testLength tests
  let again := inside + body.size
  let out := again + post.size + Code.jumpLength
  let front := d.code.toList ++ bytesOf (head.lines d.code.size 0 0)
  let rear := bytesOf (post.lines again 0 0) ++ encode .jump [d.code.size]
  have hfront : front.length = test := by simp [front, test]
  have hsize : inner.code.size = again := by
    simp [hinner, again, inside, test, Code.size, Nat.add_assoc]
  have hexits : inner.loops.headD {} = ⟨body.exits true inside, body.exits false inside⟩ := by
    have hstart : (d.enterLoop (head.seq (openTest pos tests))).code.size = inside := by
      simp [inside, test, Code.size, Nat.add_assoc]
    rw [hinner, plus, hstart]
    simp [enterLoop, Code.openLoops]
  -- Before its targets are set, the loop has the code of its layout up to these targets.
  have hopen : closed = (d.plus (.loop pos head tests body post)).withCode
      (front ++ (bytesOf (Code.testLines pos front.length 0 tests) ++
        (bytesOf (body.lines inside 0 0) ++ rear))) := by
    rw [hclosed, hinner]
    obtain ⟨kind, code, positions, loops⟩ := d
    simp only [plus, withCode, mark_loop]
    cases loops <;>
      simp [enterLoop, leaveLoop, plus, Code.lines, bytesOf_append, bytesOf_cons, bytesOf_nil, Line.bytes,
        Code.openLoops, Code.exits, PositionTable.mark_append, lines_openTest, front, rear, again, inside,
        test, Nat.add_assoc]
  have hout : closed.code.size = out := by
    simp [hclosed, leaveLoop, hsize, out, Code.size, length_jump, Nat.add_assoc]
  rw [hout, hexits, hsize, hopen]
  have htest := closeTest_withCode (d.plus (.loop pos head tests body post)) front
    (bytesOf (body.lines inside 0 0) ++ rear) pos out tests
  have hbreaks := patchAll_exits body true out (d.plus (.loop pos head tests body post))
    (front ++ bytesOf (Code.testLines pos front.length out tests)) rear 0 0
  have hcontinues := patchAll_exits body false again (d.plus (.loop pos head tests body post))
    (front ++ bytesOf (Code.testLines pos front.length out tests)) rear out 0
  have hinside : (front ++ bytesOf (Code.testLines pos front.length out tests)).length = inside := by
    simp [hfront, inside]
  rw [hinside] at hbreaks hcontinues
  rw [hfront] at htest hbreaks hcontinues ⊢
  simp only [cond_true, cond_false, List.append_assoc] at hbreaks hcontinues
  rw [htest, hbreaks, hcontinues]
  simp [plus, withCode, Code.lines, bytesOf_append, bytesOf_cons, bytesOf_nil, Line.bytes, front, rear, out,
    again, inside, test, Nat.add_assoc]

end Draft

end ScriptEngine
