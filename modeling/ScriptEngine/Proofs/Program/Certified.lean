import ScriptEngine.Proofs.Code.Heights
import ScriptEngine.Proofs.Machine.Laws
import ScriptEngine.Proofs.Program.Levels
import ScriptEngine.Proofs.Program.Merged
/-!
# Certificates of functions

A certificate of a function says what is waiting at every offset that control can come to: how many captured
cells, and at least how many values. With that at hand every instruction finds what it needs, names what is
there, and leads to offsets that the certificate knows (`Function.Certified`). Main statement: the functions of
a compiled program have certificates (`Program.Sound.certified`). The numbers of values are lower bounds only,
since an assignment through more selectors than its operand can count leaves some behind.
-/

namespace ScriptEngine

variable {f : Function} {h : Height} {ss : List Stmt} {captured n : Nat} {k : Screen}

variable {o : CompileOptions} {globals : Nat} {p : Program}

/-- An instruction names what is there. -/
def Instruction.Valid (p : Program) (globals slots captured : Nat) (i : Instruction) : Prop :=
  match i.op with
  | .const => i.first < p.constants.size
  | .closure => (p.functionAt? i.first).isSome = true
  | .getGlobal | .setGlobal | .setSelGlobal => i.first < globals
  | .getLocal | .setLocal | .defineLocal | .captureLocal | .setSelLocal => i.first < slots
  | .getFree | .setFree | .captureFree | .setSelFree => i.first < captured
  | .getBuiltin => i.first < Builtin.all.size
  | .binary => (Operator.ofCode? i.first).isSome = true
  | _ => True

/-- Where control goes from an instruction, and what is waiting there. -/
def Instruction.exits (i : Instruction) (h : Height) : List (Nat × Height) :=
  Line.flows ⟨Pos.unknown, i.offset, i.op, i.operands⟩ h

/-- A constant that an instruction uses needs no more captured cells than it gets. -/
def Instruction.Supplies (p : Program) (i : Instruction) : Prop :=
  match i.op with
  | .const => ∀ v, p.constants[i.first]? = some v → v.IsClosed
  | .closure => ∀ f, p.functionAt? i.first = some f → f.CapturesBelow i.second
  | _ => True

/-- What is asked of an instruction where some values and cells are waiting. -/
structure Instruction.Suits (k : Screen) (p : Program) (globals slots captured : Nat) (last : Opcode) (h : Height)
    (i : Instruction) : Prop where
  valid : i.Valid p globals slots captured
  supplies : i.Supplies p
  enough : h.Suffices i.op i.operands
  call : i.op = .call → k.call i.first (i.second != 0) = true
  /-- What ends a function is a return, or else the instruction that ends the run. -/
  last : i.op.isLast = true → i.op = .ret ∨ i.op = last

/-- Nowhere in a function is less waiting than its certificate says. -/
structure Function.Certified (k : Screen) (p : Program) (globals captured : Nat) (last : Opcode)
    (heightAt : Nat → Option Height) (f : Function) : Prop where
  start : heightAt 0 = some .ground
  step : ∀ n h, heightAt n = some h → ∃ i, f.instructionAt n = .ok i ∧ i.Suits k p globals f.locals captured last h ∧
    ∀ x ∈ i.exits h, ∃ h', heightAt x.1 = some h' ∧ h'.values ≤ x.2.values ∧ h'.cells = x.2.cells

/-- A function that can be called: it has a certificate for as many captured cells as it has. -/
def Function.AtHome (k : Screen) (p : Program) (globals : Nat) (f : Function) : Prop :=
  ∃ heightAt, f.Certified k p globals f.captured.size .ret heightAt

/-- What a certificate says about the main function and the functions among the constants. -/
structure Program.Certified (k : Screen) (globals : Nat) (p : Program) : Prop where
  main : ∃ heightAt, p.main.Certified k p globals 0 .suspend heightAt
  captured : p.main.captured = #[]
  locals : p.main.locals = 0
  functions : ∀ i f, p.functionAt? i = some f → f.captured = #[] ∧
    ∀ n, f.CapturesBelow n → ∃ heightAt, f.Certified k p globals n .ret heightAt

/-- A function over the cells that it asks for can be called. -/
theorem Program.Certified.atHome (h : p.Certified k globals) {i : Nat} (hf : p.functionAt? i = some f) (id : Nat)
    {captured : Array Addr} (hbelow : f.CapturesBelow captured.size) :
    ({ f with id, captured }).AtHome k p globals := by
  obtain ⟨heightAt, hstart, hstep⟩ := (h.functions i f hf).2 _ hbelow
  exact ⟨heightAt, hstart, hstep⟩

/-! ### Operands -/

/-- How operands are read: as they were written, but for a number of selectors that does not fit. -/
def Opcode.Reads (op : Opcode) (written read : List Nat) : Prop :=
  read = written ∨ op.isPart = true ∧ ∃ i m, written = [i, m] ∧ read = [i, m % capacity 1]

section Operands

variable {e : Extent} {cs : Array Value} {op : Opcode} {written read : List Nat}

theorem Opcode.Sound.binary (h : Opcode.binary.Sound k e cs n written) : ∃ op : Operator, written = [op.code] := by
  unfold Opcode.Sound at h
  split at h <;> first | exact h.elim | (obtain ⟨op, rfl⟩ := h; exact ⟨op, rfl⟩) | contradiction

theorem Opcode.Sound.call (h : Opcode.call.Sound k e cs n written) :
    ∃ (m : Nat) (spread : Bool), written = [m, spread.toNat] ∧ k.call m spread = true := by
  unfold Opcode.Sound at h
  split at h <;> first
    | exact h.elim
    | (obtain ⟨-, spread, rfl, hcall⟩ := h; exact ⟨_, spread, rfl, hcall⟩)
    | contradiction

/-- Operands that make sense are read back, if the targets of jumps fit. -/
theorem Opcode.Sound.reads (hsound : op.Sound k e cs n written)
    (hjump : op.isJump = true → written.headD 0 < capacity 4) : op.Reads written (cutOperands op.widths written) := by
  cases hop : op.isJump with
  | false =>
    rcases hsound.cut hop with hfits | ⟨hpart, i, m, hwritten, -, hcut⟩
    · exact .inl (cutOperands_of_fit hfits)
    · exact .inr ⟨hpart, i, m, hwritten, hcut⟩
  | true =>
    refine .inl (cutOperands_of_fit ?_)
    have hlt := hjump hop
    -- a jump has its target for an operand, and nothing else
    rcases written with _ | ⟨target, _ | ⟨other, rest⟩⟩ <;> cases op <;>
      first | exact hsound.elim | exact ⟨hlt, trivial⟩ | cases hop

theorem Opcode.Reads.first (h : op.Reads written read) : read.headD 0 = written.headD 0 := by
  rcases h with rfl | ⟨-, i, m, rfl, rfl⟩ <;> rfl

theorem Opcode.Reads.eq (h : op.Reads written read) (hpart : op.isPart = false) : read = written :=
  h.resolve_right fun hcut => by
    rw [hpart] at hcut
    cases hcut.1

variable (hread : op.Reads written read)
include hread

/-- With fewer selectors an assignment takes less. -/
theorem Opcode.Reads.enough (hsuffices : h.Suffices op written) : h.Suffices op read := by
  rcases hread with rfl | ⟨hpart, i, m, rfl, rfl⟩
  · exact hsuffices
  · have hle := Nat.mod_le m (capacity 1)
    obtain ⟨hvalues, hcells, hcall⟩ := hsuffices
    cases op with
    | setSelGlobal | setSelLocal | setSelFree =>
      exact ⟨Nat.le_trans (Nat.succ_le_succ hle) hvalues, hcells, hcall⟩
    | _ => cases hpart

/-- From an instruction control goes where it goes from its line, with at least as many values. -/
theorem Opcode.Reads.exits (pos : Pos) {offset : Nat} {x : Nat × Height}
    (hx : x ∈ Instruction.exits ⟨offset, op, read⟩ h) :
    ∃ y ∈ Line.flows ⟨pos, offset, op, written⟩ h, y.1 = x.1 ∧ y.2.values ≤ x.2.values ∧ y.2.cells = x.2.cells := by
  rcases hread with rfl | ⟨hpart, i, m, rfl, rfl⟩
  · refine ⟨x, ?_, rfl, Nat.le_refl _, rfl⟩
    cases op <;> exact hx
  · have hle := Nat.mod_le m (capacity 1)
    cases op with
    | setSelGlobal | setSelLocal | setSelFree =>
      cases List.mem_singleton.1 hx
      refine ⟨_, List.mem_singleton.2 rfl, rfl, ?_, rfl⟩
      exact Nat.sub_le_sub_left (Nat.succ_le_succ hle) _
    | _ => cases hpart

/-- An instruction suits if its operands make sense and it finds enough. -/
theorem Opcode.Reads.suits (captured offset : Nat)
    (hsound : op.Sound k e p.constants n written) (hcaptured : op.isFree = true → written.headD 0 < captured)
    (hsuffices : h.Suffices op written) :
    Instruction.Suits k p e.globals e.locals captured .ret h ⟨offset, op, read⟩ := by
  have hfirst : Instruction.first ⟨offset, op, read⟩ = written.headD 0 := hread.first
  refine ⟨?_, ?_, hread.enough hsuffices, fun hop => ?_, fun hlast => ?_⟩
  · rw [Instruction.Valid, hfirst]
    cases op with
    | const =>
      obtain ⟨i, v, rfl, -, hv, -⟩ := hsound.const
      exact (Array.getElem?_eq_some_iff.1 hv).1
    | binary =>
      obtain ⟨op, rfl⟩ := hsound.binary
      cases op <;> rfl
    | closure =>
      obtain ⟨i, m, f, rfl, -, hf, -⟩ := hsound.closure
      show (p.functionAt? i).isSome = true
      rw [Program.functionAt?, hf]
      rfl
    | getGlobal | setGlobal | setSelGlobal => exact hsound.global rfl
    | getLocal | setLocal | defineLocal | captureLocal | setSelLocal => exact hsound.local rfl
    | getFree | setFree | captureFree | setSelFree => exact hcaptured rfl
    | getBuiltin => exact hsound.builtin
    | _ => trivial
  · rw [Instruction.Supplies, hfirst]
    cases op with
    | const =>
      obtain ⟨i, v, rfl, -, hv, hclosed⟩ := hsound.const
      intro w hw
      cases hv.symm.trans hw
      exact hclosed
    | closure =>
      obtain ⟨i, m, f, rfl, -, hf, hbelow⟩ := hsound.closure
      intro g hg
      cases Option.some.inj (hf.symm.trans (Program.constant_of_functionAt? hg))
      rw [hread.eq rfl]
      exact hbelow
    | _ => trivial
  · cases hop
    obtain ⟨m, spread, rfl, hcall⟩ := hsound.call
    rw [hread.eq rfl]
    cases spread <;> exact hcall
  · cases op with
    | ret => exact .inl rfl
    | suspend => exact absurd rfl hsound.ne_suspend
    | _ => cases hlast

end Operands

/-! ### Functions -/

namespace Code

variable {c : Code} {l : Line}

/-- The target of a jump fits into its operand if all of the code does. -/
theorem Writes.target_lt (hwrites : c.Writes f) (hbalanced : c.Balanced false .ground) (hfalls : c.falls = false)
    (hsmall : f.code.size < capacity 4) (hl : l ∈ c.lines 0 0 0) (hjump : l.op.isJump = true) :
    l.operands.headD 0 < capacity 4 := by
  obtain ⟨l', hl', htarget⟩ := exists_target hfalls hbalanced hl hjump
  rw [← htarget]
  refine Nat.lt_trans ?_ hsmall
  rw [← size_of_writes hwrites]
  exact offset_lt_size hl'

/-- Heights of balanced code are a certificate. -/
theorem Writes.certified {last : Opcode} (hwrites : c.Writes f) (hbalanced : c.Balanced false .ground)
    (hfalls : c.falls = false) (hreads : ∀ l ∈ c.lines 0 0 0, l.op.Reads l.operands l.instruction.operands)
    (hsuits : ∀ l h, (l, h) ∈ c.marks 0 0 0 .ground → l.instruction.Suits k p globals f.locals captured last h) :
    f.Certified k p globals captured last c.waitingAt where
  start := hbalanced.enter.waitingAt hfalls
  step n h hn := by
    obtain ⟨l, hmark, rfl⟩ := exists_mark_of_waitingAt hn
    have hl := (List.of_mem_zip hmark).1
    refine ⟨l.instruction, (line_in hwrites.code hl).instructionAt, hsuits l h hmark, fun x hx => ?_⟩
    obtain ⟨y, hy, hoffset, hvalues, hcells⟩ := (hreads l hl).exits l.pos hx
    refine ⟨y.2, ?_, hvalues, hcells⟩
    rw [← hoffset]
    exact (hbalanced.flows hmark y hy).waitingAt hfalls

end Code

/-! ### Programs -/

/-- A function with captured variables that it asks for has a certificate. -/
theorem Function.Sound.certified {m : Nat} (h : f.Sound o k globals p.constants n m)
    (hsmall : f.code.size < capacity 4) (hbelow : f.CapturesBelow captured) :
    ∃ heightAt, f.Certified k p globals captured .ret heightAt := by
  obtain ⟨c, hwrites, hsound, -⟩ := h
  have hreads : ∀ l ∈ c.lines 0 0 0, l.op.Reads l.operands l.instruction.operands := fun l hl =>
    (hsound.line hl).reads (hwrites.target_lt hsound.balanced hsound.ends hsmall hl)
  refine ⟨_, hwrites.certified hsound.balanced hsound.ends hreads fun l h hmark => ?_⟩
  have hl := (List.of_mem_zip hmark).1
  refine (hreads l hl).suits _ _ (hsound.line hl) (fun hfree => ?_)
    (hsound.balanced.suffices hmark)
  rw [← (hreads l hl).first]
  exact hbelow l.instruction (hwrites.instruction_mem hl) hfree

/-- The main function has a certificate. -/
theorem Program.Sound.certified_main (h : p.Sound o ss k globals) (hsmall : p.main.code.size < capacity 4) :
    (∃ heightAt, p.main.Certified k p globals 0 .suspend heightAt) ∧ p.main.captured = #[] ∧ p.main.locals = 0 := by
  obtain ⟨c, hwrites, hlocals, hoperands, ⟨hbalanced, hafter⟩, -⟩ := h.main
  have hall := hbalanced.ending hafter
  have hlines : ∀ l ∈ c.ending.lines 0 0 0, l.op.Sound k ⟨globals, 0, 0⟩ p.constants p.constants.size l.operands ∨
      l.op = .suspend ∧ l.operands = [] := by
    intro l hl
    rcases List.mem_append.1 hl with hl | hl
    · exact .inl (hoperands.lines (fun _ target hop => Opcode.sound_jump hop target) 0 0 0 l hl)
    · cases List.mem_singleton.1 hl
      exact .inr ⟨rfl, rfl⟩
  have hreads : ∀ l ∈ c.ending.lines 0 0 0, l.op.Reads l.operands l.instruction.operands := by
    intro l hl
    rcases hlines l hl with hsound | ⟨hop, hnone⟩
    · exact hsound.reads (hwrites.target_lt hall rfl hsmall hl)
    · left
      rw [Line.instruction, hop, hnone]
      rfl
  refine ⟨⟨_, hwrites.certified hall rfl hreads fun l h hmark => ?_⟩, hwrites.captured, hlocals⟩
  have hl := (List.of_mem_zip hmark).1
  have henough := hall.suffices hmark
  rcases hlines l hl with hsound | ⟨hop, hnone⟩
  · have hsuits := (hreads l hl).suits 0 l.offset hsound (fun hfree => hsound.free hfree)
      henough
    rw [hlocals]
    exact { hsuits with last := fun hlast => .inl ((hsuits.last hlast).elim id id) }
  · obtain ⟨pos, offset, op, operands⟩ := l
    cases hop
    exact ⟨trivial, trivial, henough, fun hcall => Opcode.noConfusion hcall, fun _ => .inr rfl⟩

/-- The functions of a compiled program have certificates. -/
theorem Program.Sound.certified (h : p.Sound o ss k globals) (hshort : p.IsShort) : p.Certified k globals := by
  obtain ⟨hmain, hcaptured, hlocals⟩ := h.certified_main hshort.1
  refine ⟨hmain, hcaptured, hlocals, fun i f hf => ?_⟩
  have hconstant := Program.constant_of_functionAt? hf
  obtain ⟨m, hsound⟩ := h.functions i f hconstant
  have hsmall : f.code.size < capacity 4 :=
    of_decide_eq_true (hshort.2 _ (Array.mem_of_getElem? hconstant))
  refine ⟨?_, fun n hbelow => hsound.certified hsmall hbelow⟩
  obtain ⟨c, hwrites, -⟩ := hsound
  exact hwrites.captured

end ScriptEngine
