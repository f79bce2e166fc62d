import ScriptEngine.Proofs.Compiler.Merges
import ScriptEngine.Proofs.Program.Renumbered
import ScriptEngine.Proofs.Program.WellFormed
import ScriptEngine.Proofs.Value.Functions
/-!
# Runs with merged constants

A program and the same program with equal constants merged go in lockstep: their functions differ in the
numbers of constants only, and under its new number stands the same constant. Main statement: both runs end
alike (`Machine.run_dedup`), provided that no two functions that capture nothing became one. Two such functions
are told apart by `==` before, and not after (`Machine.run_dedup_twins`).
-/

namespace ScriptEngine

open CompileOptions Opcode

variable {c : Code} {o : CompileOptions} {f g : Function} {h : Heap} {ss : List Stmt} {globals n : Nat}
  {ρ : Nat → Nat} {p q : Program} {k : Screen} {v : Value}

variable {l : Line} {i : Nat}

/-! ### Offsets of instructions -/

/-- Where control can be in a function: before an instruction, or after the last one. -/
def Function.Starts (f : Function) (n : Nat) : Prop :=
  (∃ i ∈ (walk f.code).instructions, i.offset = n) ∨ n = f.code.size

/-- After a line stands the next one, or nothing. -/
theorem Consecutive.exists_next {ls : List Line} {start : Nat} (h : Consecutive start ls) (hl : l ∈ ls) :
    (∃ l' ∈ ls, l'.offset = l.offset + l.op.length) ∨ l.offset + l.op.length = start + (bytesOf ls).length := by
  induction ls generalizing start with
  | nil => cases hl
  | cons first rest ih =>
    obtain ⟨rfl, hrest⟩ := h
    rw [bytesOf_cons, List.length_append, Line.length_bytes, ← Nat.add_assoc]
    rcases List.mem_cons.1 hl with rfl | hl
    · cases rest with
      | nil => exact .inr rfl
      | cons second rest => exact .inl ⟨second, by simp, hrest.1⟩
    · refine (ih hrest hl).imp_left ?_
      rintro ⟨l', hl', hoffset⟩
      exact ⟨l', List.mem_cons_of_mem _ hl', hoffset⟩

theorem Line.In.instructionAt (h : l.In f.code) : f.instructionAt l.offset = .ok l.instruction := by
  rw [Function.instructionAt, h.byte]
  dsimp only
  rw [h.decode]

theorem Function.instructionAt_end (f : Function) :
    f.instructionAt f.code.size = .error (.custom "instruction pointer out of range") := by
  rw [Function.instructionAt, Array.getElem?_eq_none (Nat.le_refl _)]

section Layout

variable (hcode : f.code = (bytesOf (c.lines 0 0 0)).toArray)
include hcode

theorem Code.starts_iff : f.Starts n ↔ (∃ l ∈ c.lines 0 0 0, l.offset = n) ∨ n = f.code.size := by
  rw [Function.Starts, hcode, walk_bytesOf (c.consecutive_lines 0 0 0)]
  simp [Line.instruction]

theorem Code.starts_zero : f.Starts 0 := by
  rw [Code.starts_iff hcode, hcode]
  have hfirst := c.consecutive_lines 0 0 0
  cases hls : c.lines 0 0 0 with
  | nil => exact .inr rfl
  | cons l rest =>
    rw [hls] at hfirst
    exact .inl ⟨l, by simp, hfirst.1⟩

theorem Code.line_in (hl : l ∈ c.lines 0 0 0) : l.In f.code := by
  rw [hcode]
  exact c.in_lines 0 0 l hl

end Layout

/-! ### Functions with new numbers of constants -/

/-- No instruction of a function takes a constant, at whatever offset it is read. -/
def Function.TakesNoConstant (f : Function) : Prop :=
  ∀ n i, f.instructionAt n = .ok i → i.op.takesConstant = false

/-- Code of a function of a program, short enough for its jumps. -/
structure Code.BelongsTo (c : Code) (p : Program) : Prop where
  lines : ∀ l ∈ c.lines 0 0 0, l.op = .suspend ∨ ∃ k e, l.op.Sound k e p.constants p.constants.size l.operands
  uses : c.All (Opcode.Uses p.constants.size)
  balanced : c.Balanced false .ground
  ends : c.falls = false
  short : c.size < capacity 4

/-- A function of a program with new numbers of constants in its code. -/
def Function.Recoded (ρ : Nat → Nat) (p : Program) (f g : Function) : Prop :=
  ∃ c : Code, c.BelongsTo p ∧ f.code = (bytesOf (c.lines 0 0 0)).toArray ∧
    g = { f with code := (bytesOf ((c.renumber ρ).lines 0 0 0)).toArray }

/-- Functions of a program get new numbers of constants, and all else stays as it is. -/
def Correspondence.recoding (ρ : Nat → Nat) (p : Program) : Correspondence where
  function f g := f.Recoded ρ p g ∨ f = g ∧ f.TakesNoConstant
  offset f g n := f.Starts n ∨ f = g ∧ f.TakesNoConstant
  ids := id
  buffers := id
  arrays := id
  maps := id
  iterators := id
  excused _ := False
  id_eq := by
    rintro f g (⟨c, -, -, rfl⟩ | ⟨rfl, -⟩) <;> rfl
  ids_inj := fun _ _ h => h
  buffers_inj := fun _ _ h => h
  arrays_inj := fun _ _ h => h
  maps_inj := fun _ _ h => h
  iterators_inj := fun _ _ h => h

namespace Correspondence

theorem isStill_recoding (ρ : Nat → Nat) (p : Program) : (recoding ρ p).IsStill := ⟨rfl, rfl, rfl, rfl, rfl⟩

theorem isStrict_recoding (ρ : Nat → Nat) (p : Program) : (recoding ρ p).IsStrict := fun _ h => h

end Correspondence

open Correspondence (recoding)

/-- Under their new numbers stand constants that correspond. -/
structure Program.Keeps (ρ : Nat → Nat) (p q : Program) : Prop where
  small : ∀ i < p.constants.size, ρ i ≤ i
  closed : ∀ (i : Nat) v, p.constants[i]? = some v → v.IsClosed →
    ∃ w, q.constants[ρ i]? = some w ∧ v.Corresponds (recoding ρ p) w
  functions : ∀ (i : Nat) f, p.constants[i]? = some (.function f) →
    ∃ g, q.constants[ρ i]? = some (.function g) ∧ ∀ n, (recoding ρ p).Makes n f g

section Recoding

theorem Line.renumber_of_takesNoConstant (h : l.op.takesConstant = false) : l.renumber ρ = l := by
  rw [Line.renumber, Opcode.renumber, h]
  rfl

/-- A line and the line with the new number are instructions that correspond. -/
theorem Program.Keeps.line (h : p.Keeps ρ q) (hc : c.BelongsTo p) (hl : l ∈ c.lines 0 0 0) :
    l.instruction.Corresponds (recoding ρ p) p q (l.renumber ρ).instruction := by
  cases htakes : l.op.takesConstant with
  | false =>
    rw [Line.renumber_of_takesNoConstant htakes]
    refine .same ?_ ?_ <;> rintro (hop : l.op = _) <;> rw [hop] at htakes <;> cases htakes
  | true =>
    have hsound : ∃ k e, l.op.Sound k e p.constants p.constants.size l.operands := by
      refine (hc.lines l hl).resolve_left fun hop => ?_
      rw [hop] at htakes
      cases htakes
    obtain ⟨k, e, hsound⟩ := hsound
    obtain ⟨pos, offset, op, operands⟩ := l
    cases op with
    | const =>
      obtain ⟨i, rest, hoperands, hi, hwide⟩ := hsound.uses rfl
      obtain ⟨_, v, rfl, -, hv, hclosed⟩ := hsound.const
      cases hoperands
      obtain ⟨w, hw, hvw⟩ := h.closed i v hv hclosed
      have hsmall : ρ i ≤ CompileM.maxWide := Nat.le_trans (h.small i hi) hwide
      have hcut : ∀ m ≤ CompileM.maxWide, cutOperands const.widths [m] = [m] :=
        fun m hm => cutOperands_of_fit ⟨lt_capacity_two hm, trivial⟩
      show Instruction.Corresponds _ p q ⟨offset, .const, cutOperands const.widths [i]⟩
        ⟨offset, .const, cutOperands const.widths [ρ i]⟩
      rw [hcut i hwide, hcut (ρ i) hsmall]
      refine .const ?_ ?_
      · rw [List.headD_cons, List.headD_cons, hv, hw]
        exact .some hvw
      · rw [List.headD_cons, hv]
        intro hnone
        cases hnone
    | closure =>
      obtain ⟨i, rest, hoperands, hi, hwide⟩ := hsound.uses rfl
      obtain ⟨_, m, f, rfl, -, hf, -⟩ := hsound.closure
      cases hoperands
      obtain ⟨g, hg, hmakes⟩ := h.functions i f hf
      have hsmall : ρ i ≤ CompileM.maxWide := Nat.le_trans (h.small i hi) hwide
      have hf' : p.functionAt? i = some f := by rw [Program.functionAt?, hf]
      have hg' : q.functionAt? (ρ i) = some g := by rw [Program.functionAt?, hg]
      have hcut : ∀ i ≤ CompileM.maxWide, cutOperands closure.widths [i, m] = [i, m % capacity 1] := by
        intro i hi
        simp [widths, cutOperands, Nat.mod_eq_of_lt (lt_capacity_two hi)]
      show Instruction.Corresponds _ p q ⟨offset, .closure, cutOperands closure.widths [i, m]⟩
        ⟨offset, .closure, cutOperands closure.widths [ρ i, m]⟩
      rw [hcut i hwide, hcut (ρ i) hsmall]
      refine .closure ?_ ?_ rfl
      · rw [List.headD_cons, List.headD_cons, hf', hg']
        exact .some (hmakes _)
      · rw [List.headD_cons, hf']
        intro hnone
        cases hnone
    | _ => cases htakes

/-- Where control can be, both codes have a line, or both are at their end. -/
theorem Function.Recoded.line (h : f.Recoded ρ p g) (hn : f.Starts n) :
    (∃ (c : Code) (l : Line), c.BelongsTo p ∧ l ∈ c.lines 0 0 0 ∧ l.offset = n ∧ l.In f.code ∧
      (l.renumber ρ).In g.code) ∨
      f.code.size = n ∧ g.code.size = n := by
  obtain ⟨c, hc, hcode, rfl⟩ := h
  rcases (Code.starts_iff hcode).1 hn with ⟨l, hl, rfl⟩ | rfl
  · refine .inl ⟨c, l, hc, hl, rfl, Code.line_in hcode hl, Code.line_in rfl ?_⟩
    rw [Code.lines_renumber]
    exact List.mem_map_of_mem hl
  · refine .inr ⟨rfl, ?_⟩
    rw [hcode]
    simp

/-- A jump goes to an instruction. -/
theorem Code.BelongsTo.target (hc : c.BelongsTo p) (hcode : f.code = (bytesOf (c.lines 0 0 0)).toArray)
    (hl : l ∈ c.lines 0 0 0) (hjump : l.op.isJump = true) : f.Starts l.instruction.first := by
  have hwrites : c.Writes ({ code := f.code, positions := ({} : PositionTable).mark (c.lines 0 0 0) }) :=
    ⟨hcode, rfl, rfl⟩
  have hshort : f.code.size < capacity 4 := by
    rw [hcode]
    simpa using hc.short
  exact .inl (hwrites.jumps hc.balanced hc.ends hshort _ (hwrites.instruction_mem hl) hjump)

/-- Whether a value is returned can be read off a line. -/
theorem Line.returns_eq {code : Array UInt8} (h : l.In code) :
    (code[l.offset]? == some ret.byte && code[l.offset + 1]? == some 1) =
      (l.op == .ret && l.bytes[1]? == some 1) := by
  rw [h.byte]
  by_cases hop : l.op = .ret
  · have hlength : l.bytes.length = 2 := by
      rw [Line.length_bytes, hop]
      rfl
    obtain ⟨first, second, hbytes⟩ := List.length_eq_two.1 hlength
    have hstands : StandsAt code l.offset l.bytes := h
    rw [hbytes] at hstands
    have hsecond : code[l.offset + 1]? = some second := (StandsAt.right (a := [first]) hstands).getD
    rw [hsecond, hbytes, hop]
    simp
  · have hbyte : l.op.byte ≠ ret.byte := fun h => hop (byte_injective h)
    have hleft : (some l.op.byte == some ret.byte) = false := by simpa using hbyte
    have hright : (l.op == ret) = false := by simpa using hop
    rw [hleft, hright, Bool.false_and, Bool.false_and]

theorem Line.returns_renumber (l : Line) :
    ((l.renumber ρ).op == .ret && (l.renumber ρ).bytes[1]? == some 1) = (l.op == .ret && l.bytes[1]? == some 1) := by
  cases htakes : l.op.takesConstant with
  | false => rw [Line.renumber_of_takesNoConstant htakes]
  | true =>
    have hop : (l.op == ret) = false := by
      rw [beq_eq_false_iff_ne]
      rintro hop
      rw [hop] at htakes
      cases htakes
    show (l.op == .ret && _) = _
    rw [hop, Bool.false_and, Bool.false_and]

/-- A function that takes no constant has the same instructions in both programs. -/
theorem Function.TakesNoConstant.instruction (hf : f.TakesNoConstant) (n : Nat) :
    (∃ i j, f.instructionAt n = .ok i ∧ f.instructionAt n = .ok j ∧ i.Corresponds (recoding ρ p) p q j) ∨
      ∃ c, f.instructionAt n = .error c ∧ f.instructionAt n = .error c := by
  cases hi : f.instructionAt n with
  | error c => exact .inr ⟨c, rfl, rfl⟩
  | ok i =>
    have htakes := hf n i hi
    refine .inl ⟨i, i, rfl, rfl, .same ?_ ?_⟩ <;> intro hop <;> rw [hop] at htakes <;> cases htakes

theorem Correspondence.runs_recoding (h : p.Keeps ρ q) : (recoding ρ p).Runs p q where
  locals := by rintro f g (⟨c, -, -, rfl⟩ | ⟨rfl, -⟩) <;> rfl
  parameters := by rintro f g (⟨c, -, -, rfl⟩ | ⟨rfl, -⟩) <;> rfl
  variadic := by rintro f g (⟨c, -, -, rfl⟩ | ⟨rfl, -⟩) <;> rfl
  captured := by rintro f g (⟨c, -, -, rfl⟩ | ⟨rfl, -⟩) <;> rfl
  position := by rintro f g (⟨c, -, -, rfl⟩ | ⟨rfl, -⟩) n <;> rfl
  start := by
    rintro f g (⟨c, -, hcode, -⟩ | hsame)
    · exact .inl (Code.starts_zero hcode)
    · exact .inr hsame
  instruction := by
    rintro f g (hfg | ⟨rfl, hf⟩) n hn
    · rcases hn with hn | ⟨rfl, hf⟩
      · rcases hfg.line hn with ⟨c, l, hc, hl, rfl, hleft, hright⟩ | ⟨hf, hg⟩
        · exact .inl ⟨_, _, hleft.instructionAt, hright.instructionAt, h.line hc hl⟩
        · exact .inr ⟨_, hf ▸ f.instructionAt_end, hg ▸ g.instructionAt_end⟩
      · exact hf.instruction n
    · exact hf.instruction n
  next := by
    rintro f g hfg n hn i hi
    rcases hn with hn | hsame
    · rcases hfg with ⟨c, hc, hcode, -⟩ | hsame
      · rcases (Code.starts_iff hcode).1 hn with ⟨l, hl, rfl⟩ | rfl
        · rw [(Code.line_in hcode hl).instructionAt] at hi
          cases hi
          refine ⟨.inl ((Code.starts_iff hcode).2 ?_), fun hjump => .inl (hc.target hcode hl hjump)⟩
          refine ((c.consecutive_lines 0 0 0).exists_next hl).imp_right fun hend => ?_
          rw [Nat.zero_add] at hend
          rw [hcode]
          exact hend
        · rw [f.instructionAt_end] at hi
          cases hi
      · exact ⟨.inr hsame, fun _ => .inr hsame⟩
    · exact ⟨.inr hsame, fun _ => .inr hsame⟩
  returns := by
    rintro f g (hfg | ⟨rfl, -⟩) n hn
    · rcases hn with hn | ⟨rfl, -⟩
      · rcases hfg.line hn with ⟨c, l, -, -, rfl, hleft, hright⟩ | ⟨hf, hg⟩
        · exact (Line.returns_eq hright).trans ((Line.returns_renumber l).trans (Line.returns_eq hleft).symm)
        · rw [Array.getElem?_eq_none (Nat.le_of_eq hf), Array.getElem?_eq_none (Nat.le_of_eq hg)]
          rfl
      · rfl
    · rfl

end Recoding

/-! ### Programs with merged constants -/

/-- Whether the code of a constant is short enough for the operands of its jumps. -/
def Value.isShort : Value → Bool
  | .function f => f.code.size < capacity 4
  | _ => true

/-- The code of every function is short enough for the operands of its jumps. -/
def Program.IsShort (p : Program) : Prop := p.main.code.size < capacity 4 ∧ ∀ v ∈ p.constants, v.isShort = true

instance (f : Function) (n : Nat) : Decidable (f.CapturesBelow n) :=
  inferInstanceAs (Decidable (∀ i ∈ (walk f.code).instructions, _))

/-- No two functions that capture nothing become one when equal constants are merged. -/
def Program.KeepsApart (p : Program) (h : Heap) : Prop :=
  ∀ i < p.constants.size, ∀ j < p.constants.size, ∀ f ∈ p.functionAt? i, ∀ g ∈ p.functionAt? j,
    p.numbering h i = p.numbering h j → f.CapturesBelow 0 → f.id = g.id

instance (p : Program) : Decidable p.IsShort := inferInstanceAs (Decidable (_ ∧ _))

instance (p : Program) (h : Heap) : Decidable (p.KeepsApart h) :=
  inferInstanceAs (Decidable (∀ i < p.constants.size, _))

/-- Every module of the host carries its own name. -/
def ModuleTable.Named (t : ModuleTable) (h : Heap) : Prop :=
  ∀ name v, t.find? name = some (.native v) → v.moduleName? h = some name

/-- A constant with the key of a function is the same function but for its identity and what it captured. -/
theorem Dedup.Alike.eq_function (halike : Alike h (.function f) (.function g)) :
    g = { f with id := g.id, captured := g.captured } := by
  rcases halike with hsame | ⟨key, hkey, hkey'⟩
  · cases hsame
    rfl
  · cases hkey
    simp only [keyOf, Option.some.injEq, ConstantKey.function.injEq] at hkey'
    cases g
    simp_all

/-- Modules that carry their own names are merged with themselves only. -/
theorem Dedup.Alike.eq_module {w : Value} {name name' : String} (hmaps : o.modules.ProvidesMaps)
    (hnamed : o.modules.Named h) (halike : Alike h v w) (hv : o.modules.find? name = some (.native v))
    (hw : o.modules.find? name' = some (.native w)) : w = v := by
  rcases halike with rfl | ⟨key, hkey, hkey'⟩
  · rfl
  obtain ⟨a, rfl⟩ := hmaps name v hv
  obtain ⟨b, rfl⟩ := hmaps name' w hw
  rw [keyOf, hnamed name _ hv, Option.map_some, Option.some.injEq] at hkey
  rw [keyOf, hnamed name' _ hw, Option.map_some, Option.some.injEq, ← hkey, ConstantKey.module.injEq] at hkey'
  subst hkey'
  rw [hv] at hw
  cases hw
  rfl

section Merges

theorem Code.size_of_writes (h : c.Writes f) : c.size = f.code.size := by
  rw [h.code]
  simp

theorem Program.Sound.belongs (hp : p.Sound o ss k globals) (hshort : p.IsShort)
    (hf : p.constants[i]? = some (.function f)) : ∃ c : Code, c.BelongsTo p ∧ c.Writes f := by
  obtain ⟨m, c, hwrites, hsound, -⟩ := hp.functions i f hf
  have hi := (Array.getElem?_eq_some_iff.1 hf).1
  have hoperands := hsound.operands.sound ⟨Nat.le_refl _, Nat.le_refl _, Nat.le_refl _⟩ (KeptIn.refl _) (Nat.le_of_lt hi)
  refine ⟨c, ⟨fun l hl => .inr ?_, hoperands.imp fun _ _ hop => hop.uses, hsound.balanced, hsound.ends, ?_⟩, hwrites⟩
  · exact ⟨_, _, hoperands.lines (fun _ target hop => sound_jump hop target) 0 0 0 l hl⟩
  · rw [Code.size_of_writes hwrites]
    exact of_decide_eq_true (hshort.2 _ (Array.mem_of_getElem? hf))

theorem Program.Sound.main_belongs (hp : p.Sound o ss k globals) (hshort : p.IsShort) :
    ∃ c : Code, c.BelongsTo p ∧ c.Writes p.main := by
  obtain ⟨c, hwrites, -, hoperands, ⟨hbalanced, hafter⟩, -⟩ := hp.main
  refine ⟨c.ending, ⟨fun l hl => ?_, ⟨hoperands.imp fun _ _ hop => hop.uses, uses_nothing rfl⟩,
    ⟨hbalanced, rfl, ?_⟩, rfl, ?_⟩, hwrites⟩
  · rcases List.mem_append.1 hl with hl | hl
    · exact .inr ⟨_, _, hoperands.lines (fun _ target hop => sound_jump hop target) 0 0 0 l hl⟩
    · cases List.mem_singleton.1 hl
      exact .inl rfl
  · rw [hafter]
    exact ⟨Nat.le_refl 0, Nat.le_refl 0, fun h => by cases h⟩
  · rw [Code.size_of_writes hwrites]
    exact hshort.1

/-- Under the new number of a function stands this function with new numbers in its code, and with the identity
of one of those that got this number. -/
theorem Program.Merges.function (hm : p.Merges h ρ q) (hp : p.Sound o ss k globals) (hshort : p.IsShort)
    (hf : p.constants[i]? = some (.function f)) :
    ∃ (c : Code) (j : Nat) (f' : Function), c.BelongsTo p ∧ f.code = (bytesOf (c.lines 0 0 0)).toArray ∧
      p.constants[j]? = some (.function f') ∧ ρ i = ρ j ∧ q.constants[ρ i]? = some (.function
        { f with id := f'.id, code := (bytesOf ((c.renumber ρ).lines 0 0 0)).toArray }) := by
  obtain ⟨c, hc, hwrites⟩ := hp.belongs hshort hf
  obtain ⟨_, _, hu, ⟨g, rfl, hg⟩, halike⟩ := hm.found i _ hf
  obtain ⟨g', rfl, -⟩ := halike.function
  obtain ⟨j, v, hv, hj, hrenumbered, -⟩ := hm.origin _ _ hu
  cases v with
  | function f' =>
    obtain ⟨_, hsame, hg'⟩ := hrenumbered
    cases hsame
    obtain ⟨c', -, hwrites'⟩ := hp.belongs hshort hv
    have hcode : g.code = (bytesOf ((c.renumber ρ).lines 0 0 0)).toArray := hg.code c hwrites.code hc.uses
    have hcaptured : g'.captured = f.captured := by
      rw [hg'.rest, hwrites.captured]
      exact hwrites'.captured
    have hid : g'.id = f'.id := by rw [hg'.rest]
    refine ⟨c, j, f', hc, hwrites.code, hv, hj.symm, ?_⟩
    rw [hu, halike.eq_function, hg.rest, hcode, hcaptured, hid]
  | _ => cases hrenumbered

/-- What stands under the new number of a literal or of a module is the same constant. -/
theorem Program.Merges.eq_of_isConstant (hm : p.Merges h ρ q) (hconstants : ∀ v ∈ p.constants, v.IsConstant o)
    (hmaps : o.modules.ProvidesMaps) (hnamed : o.modules.Named h) (hv : p.constants[i]? = some v)
    (hne : ∀ f, v ≠ .function f) : q.constants[ρ i]? = some v := by
  -- Only functions are renumbered, so the constant that stands there is one of the program.
  have hsame : ∀ {v w : Value}, (∀ f, v ≠ .function f) → v.Renumbered p.constants.size ρ w → w = v := by
    intro v w hne hrenumbered
    cases v with
    | function f => exact absurd rfl (hne f)
    | _ => exact hrenumbered
  obtain ⟨_, u, hu, hrenumbered, halike⟩ := hm.found i v hv
  obtain rfl := hsame hne hrenumbered
  have hu' : u ∈ p.constants := by
    obtain ⟨j, v', hv', -, hrenumbered', -⟩ := hm.origin _ _ hu
    have hne' : ∀ f, v' ≠ .function f := by
      rintro f rfl
      obtain ⟨g, rfl, -⟩ := hrenumbered'
      exact halike.ne_function hne g rfl
    rw [hsame hne' hrenumbered']
    exact Array.mem_of_getElem? hv'
  rw [hu]
  rcases hconstants _ (Array.mem_of_getElem? hv) with hliteral | ⟨f, rfl⟩ | ⟨name, hmodule⟩
  · rw [halike.eq_of_isLiteral hliteral]
  · exact absurd rfl (hne f)
  · rcases hconstants u hu' with hliteral | ⟨g, rfl⟩ | ⟨name', hmodule'⟩
    · rw [halike.symm.eq_of_isLiteral hliteral]
    · exact absurd rfl (halike.ne_function hne g)
    · rw [halike.eq_module hmaps hnamed hmodule hmodule']

/-- Merging keeps what stands under the numbers, as long as it keeps functions that capture nothing apart. -/
theorem Program.Merges.keeps (hm : p.Merges h ρ q) (hp : p.Sound o ss k globals) (hshort : p.IsShort)
    (hconstants : ∀ v ∈ p.constants, v.IsConstant o) (hmaps : o.modules.ProvidesMaps) (hnamed : o.modules.Named h)
    (hapart : ∀ (i j : Nat) f g, p.constants[i]? = some (.function f) → p.constants[j]? = some (.function g) →
      ρ i = ρ j → f.CapturesBelow 0 → f.id = g.id) : p.Keeps ρ q where
  small := hm.small
  closed i v hv hclosed := by
    by_cases hfunction : ∃ f, v = .function f
    · obtain ⟨f, rfl⟩ := hfunction
      obtain ⟨c, j, f', hc, hcode, hf', hnumber, hg⟩ := hm.function hp hshort hv
      refine ⟨_, hg, .function (.inl ⟨c, hc, hcode, ?_⟩)⟩
      rw [← hapart i j f f' hv hf' hnumber (hclosed f rfl)]
    · have hne : ∀ f, v ≠ .function f := fun f hf => hfunction ⟨f, hf⟩
      refine ⟨v, hm.eq_of_isConstant hconstants hmaps hnamed hv hne, ?_⟩
      refine Value.corresponds_self (Correspondence.isStill_recoding ρ p) ?_
      rcases hconstants v (Array.mem_of_getElem? hv) with hliteral | hfunction' | ⟨name, hmodule⟩
      · cases v <;> trivial
      · exact absurd hfunction' hfunction
      · obtain ⟨a, rfl⟩ := hmaps name v hmodule
        trivial
  functions i f hf := by
    obtain ⟨c, j, f', hc, hcode, -, -, hg⟩ := hm.function hp hshort hf
    exact ⟨_, hg, fun _ id captured _ => .inl ⟨c, hc, hcode, rfl⟩⟩

end Merges

/-! ### Runs -/

theorem Program.KeepsApart.ids (hp : p.KeepsApart h) {j : Nat} (hf : p.constants[i]? = some (.function f))
    (hg : p.constants[j]? = some (.function g)) (hnumber : p.numbering h i = p.numbering h j)
    (hcaptures : f.CapturesBelow 0) : f.id = g.id := by
  refine hp i (Array.getElem?_eq_some_iff.1 hf).1 j (Array.getElem?_eq_some_iff.1 hg).1 f ?_ g ?_ hnumber hcaptures
  · rw [Program.functionAt?, hf]
    rfl
  · rw [Program.functionAt?, hg]
    rfl

/-- Settings that differ in merged constants only. -/
theorem Setting.corresponds_dedup (hp : p.Sound o ss k globals) (hshort : p.IsShort)
    (hconstants : ∀ v ∈ p.constants, v.IsConstant o) (hmaps : o.modules.ProvidesMaps) (hnamed : o.modules.Named h)
    (hapart : p.KeepsApart h) (s : Setting) (hhost : s.host.IsUniform s.limits) :
    { s with program := p }.Corresponds (recoding (p.numbering h) p) { s with program := p.dedup h } := by
  have hm := Program.dedup_merges hp.laidOut h
  have hkeeps := hm.keeps hp hshort hconstants hmaps hnamed fun i j f g => hapart.ids
  refine
    { files := hm.files, runs := Correspondence.runs_recoding hkeeps, main := .inl ?_,
      limits := ⟨.inl rfl, .inl rfl, .inl rfl⟩, allocs := .inl rfl, stackSize := .inl rfl, maxFrames := .inl rfl,
      interval := rfl, reuse := rfl, host := hhost _ (Correspondence.isStrict_recoding _ _) }
  obtain ⟨c, hc, hwrites⟩ := hp.main_belongs hshort
  refine ⟨c, hc, hwrites.code, ?_⟩
  rw [hm.main.rest, hm.main.code c hwrites.code hc.uses]

/-- A machine whose functions take no constants corresponds to itself. -/
theorem Machine.EachFunction.corresponds_recoding {m : Machine} (hm : m.EachFunction Function.TakesNoConstant)
    (ρ : Nat → Nat) (p : Program) : m.Corresponds (recoding ρ p) m :=
  Machine.corresponds_self (Correspondence.isStill_recoding ρ p) (hm.mono fun _ hf => .inr ⟨rfl, hf⟩)

/-- The program with equal constants merged runs like the program without: the runs end with the same value or
the same failure, and leave the same globals and as many allocations, up to the numbers of constants in the code
of functions. -/
theorem Machine.run_dedup (o : CompileOptions) (files : FileSet) {symbols : SymbolTable} (file : File) (h : Heap)
    {p : Program} (hsymbols : symbols.Initial) (hmaps : o.modules.ProvidesMaps) (hnamed : o.modules.Named h)
    (hok : (compile (o.merging false) files symbols file h).result = .ok p) (hshort : p.IsShort)
    (hapart : p.KeepsApart (compile (o.merging false) files symbols file h).heap) :
    ∃ q, (compile (o.merging true) files symbols file h).result = .ok q ∧
      ∀ s : Setting, s.host.IsUniform s.limits → ∀ m : Machine, m.EachFunction Function.TakesNoConstant → ∀ fuel,
        EndAlike (recoding (p.numbering (compile (o.merging false) files symbols file h).heap) p)
          (run { s with program := p } fuel m) (run { s with program := q } fuel m) := by
  refine ⟨p.dedup (compile (o.merging false) files symbols file h).heap, ?_, fun s hhost m hm fuel => ?_⟩
  · rw [result_merging, hok]
    rfl
  obtain ⟨c, σ, hlowers, -, hheap, hp⟩ := lowers_of_compile hok
  have hsound := sound_of_compile (o := o.merging false) hsymbols hmaps o.modules.passes_any
    (Stmt.allPass_any file.stmts) hok
  have hconstants : ∀ v ∈ p.constants, v.IsConstant (o.merging false) := by
    intro v hv
    rw [hp] at hv
    exact (hlowers.proceeds.adds v hv).resolve_left (Array.not_mem_empty v)
  have hnamed' : (o.merging false).modules.Named (compile (o.merging false) files symbols file h).heap := by
    rw [hheap]
    exact hnamed
  have hs := Setting.corresponds_dedup hsound hshort hconstants hmaps hnamed' hapart s hhost
  have hstart := hm.corresponds_recoding (p.numbering (compile (o.merging false) files symbols file h).heap) p
  exact (Exec.agree_run hs fuel hstart rfl).endAlike (Correspondence.isStrict_recoding _ _)

/-- `a := func() {}; b := func() {}; c := a == b`. -/
def File.twins : File where
  name := "main"
  stmts :=
    [.assignOf (.name "a") .define (.funcOf [] false []),
     .assignOf (.name "b") .define (.funcOf [] false []),
     .assignOf (.name "c") .define (.binaryOf (.name "a") .equal (.name "b"))]

/-- Whether a value is `true`. -/
def Value.isTrue : Value → Bool
  | .bool b => b
  | _ => false

/-- The globals after a run. -/
def Exec.globalsOf : EStateM.Result Halt Machine Value → Array Value
  | .ok _ m | .error _ m => m.globals

/-- Two functions that became one are equal, and were not before. -/
theorem Machine.run_dedup_twins :
    (Exec.globalsOf (run { program := (compile (merging {} false) {} .withBuiltins .twins {}).program } 12
        { globals := .replicate 3 .undefined })).map Value.isTrue = #[false, false, false] ∧
      (Exec.globalsOf (run { program := (compile (merging {} true) {} .withBuiltins .twins {}).program } 12
        { globals := .replicate 3 .undefined })).map Value.isTrue = #[false, false, true] := by
  refine ⟨?_, ?_⟩ <;> decide +kernel

/-- `f := func(k) { return func() { return k } }; g := func(k, l) { return func() { return k } };
x := f(5)() + g(5, 5)()`. -/
def File.makers : File where
  name := "main"
  stmts :=
    [.assignOf (.name "f") .define (.funcOf [⟨"k", Pos.unknown⟩] false [getter]),
     .assignOf (.name "g") .define (.funcOf [⟨"k", Pos.unknown⟩, ⟨"l", Pos.unknown⟩] false [getter]),
     .assignOf (.name "x") .define (.binaryOf (.callOf (.callOf (.name "f") [five] false) [] false) (.arith .add)
       (.callOf (.callOf (.name "g") [five, five] false) [] false))]
where
  five : Expr := .int Pos.unknown 5
  getter : Stmt := .ret Pos.unknown (some (.funcOf [] false [.ret Pos.unknown (some (.name "k"))]))

/-- The numbers and the functions over captured variables are merged, the functions that make them are not. -/
theorem Machine.run_dedup_makers :
    ∃ q, (compile (merging {} true) {} .withBuiltins .makers {}).result = .ok q ∧
      EndAlike (recoding ((compile (merging {} false) {} .withBuiltins .makers {}).program.numbering
          (compile (merging {} false) {} .withBuiltins .makers {}).heap)
          (compile (merging {} false) {} .withBuiltins .makers {}).program)
        (run { program := (compile (merging {} false) {} .withBuiltins .makers {}).program } 50
          { globals := .replicate 3 .undefined })
        (run { program := q } 50 { globals := .replicate 3 .undefined }) := by
  have hok := Compilation.result_eq (c := compile (merging {} false) {} .withBuiltins .makers {})
    (by decide +kernel)
  have hmodules : ∀ name v, ({} : ModuleTable).find? name ≠ some (.native v) := fun name v h => by cases h
  obtain ⟨q, hq, hruns⟩ := run_dedup {} {} .makers {} .withBuiltins (fun name v h => absurd h (hmodules name v))
    (fun name v h => absurd h (hmodules name v)) hok (by decide +kernel) (by decide +kernel)
  refine ⟨q, hq, hruns {} (Host.isUniform_none _) _ ⟨⟨?_, ?_, ?_, ?_⟩, ?_⟩ 50⟩
  · exact fun _ h => absurd h (Array.not_mem_empty _)
  · exact fun _ h => absurd h (Array.not_mem_empty _)
  · exact fun _ h => absurd h (Array.not_mem_empty _)
  · exact fun _ h => absurd h (Array.not_mem_empty _)
  · intro v hv
    obtain ⟨-, rfl⟩ := Array.mem_replicate.1 hv
    trivial

end ScriptEngine
