import ScriptEngine.Proofs.Program.Sound
/-!
# Well-formed programs

The code of a well-formed function is a sequence of whole instructions that control never runs off:
jumps go to instructions, the last instruction ends the function, and operands name variables and
constants that are there. `Function.WellFormed` says so about the instructions that are read from the
bytes of a function. Main statement: what a compilation makes is well formed (`wellFormed_of_compile`).
-/

namespace ScriptEngine

open SymbolTable (root)

variable {cs : Array Value} {c : Code} {o : CompileOptions} {f : Function} {h : Height} {globals m n start : Nat}
  {k : Screen}

/-- The code of a function that ends with a given instruction, with a number of globals and the first `n` of
some constants at hand. -/
structure Function.WellFormed (f : Function) (last : Opcode) (globals n : Nat) (cs : Array Value) : Prop where
  /-- The code is a sequence of whole instructions. -/
  whole : (walk f.code).fault = none
  /-- Jumps go to instructions, unless the code is too long for their operands. -/
  jumps : f.code.size < capacity 4 → ∀ i ∈ (walk f.code).instructions, i.op.isJump = true →
    ∃ j ∈ (walk f.code).instructions, j.offset = i.first
  ends : ∃ i, (walk f.code).instructions.back? = some i ∧ i.op = last
  /-- Only the main function ends the run, and only its last instruction does. -/
  suspends : ∀ i ∈ (walk f.code).instructions, i.op = .suspend →
    last = .suspend ∧ (walk f.code).instructions.back? = some i
  locals : ∀ i ∈ (walk f.code).instructions, i.op.isLocal = true → i.first < f.locals
  globals : ∀ i ∈ (walk f.code).instructions, i.op.isGlobal = true → i.first < globals
  builtins : ∀ i ∈ (walk f.code).instructions, i.op = .getBuiltin → i.first < Builtin.all.size
  constants : ∀ i ∈ (walk f.code).instructions, i.op.takesConstant = true → i.first < n
  /-- A function over captured cells is made of a constant that uses no more cells than there are. -/
  closures : ∀ i ∈ (walk f.code).instructions, i.op = .closure →
    ∃ g, cs[i.first]? = some (.function g) ∧ g.CapturesBelow i.second
  /-- A function that uses captured cells is not used as it is. -/
  loads : ∀ i ∈ (walk f.code).instructions, i.op = .const →
    ∀ g, cs[i.first]? = some (.function g) → g.CapturesBelow 0
  /-- Every instruction has a position, and nothing else has. -/
  positions : f.positions.entries.map (·.1) = (walk f.code).instructions.map (·.offset)

/-- The main function ends the run, and every function among the constants returns and refers to constants
before it. -/
structure Program.WellFormed (p : Program) (globals : Nat) : Prop where
  main : p.main.WellFormed .suspend globals p.constants.size p.constants
  functions : ∀ (i : Nat) f, p.constants[i]? = some (.function f) → f.WellFormed .ret globals i p.constants

/-! ### Layouts -/

/-- The positions of lines that follow each other are kept in order. -/
theorem PositionTable.entries_mark {ls : List Line} {t : PositionTable} (h : Consecutive start ls)
    (ht : (t.entries.back?).all (·.1 < start) = true) :
    (t.mark ls).entries = t.entries ++ (ls.map fun l => (l.offset, l.pos)).toArray := by
  induction ls generalizing start t with
  | nil => simp [mark]
  | cons l rest ih =>
    obtain ⟨rfl, hrest⟩ := h
    have hfirst : t.insert l.offset l.pos = { entries := t.entries.push (l.offset, l.pos) } := by
      rw [insert, if_pos ht]
    have hlength : 0 < l.op.length := by
      rw [Opcode.length]
      omega
    show ((t.insert l.offset l.pos).mark rest).entries = _
    rw [hfirst, ih hrest (by simpa using hlength)]
    simp

namespace Code

/-- Code whose end control does not get to has a last instruction that says so. -/
theorem exists_last (hfalls : c.falls = false) (hc : c.Balanced false h) (start stop next : Nat) :
    ∃ l, (c.lines start stop next).getLast? = some l ∧ l.op.isLast = true := by
  induction c generalizing h start with
  | nop | skip | choose | loop => cases hfalls
  | instr pos op operands => exact ⟨_, rfl, by simpa using hfalls⟩
  | seq a b iha ihb =>
    obtain ⟨l, hl, hlast⟩ := ihb hfalls hc.2 (start + a.size)
    exact ⟨l, by rw [lines, List.getLast?_append, hl, Option.some_or], hlast⟩
  | leave pos isBreak => cases hc.1

/-- Jumps in balanced code go to instructions. -/
theorem exists_target (hfalls : c.falls = false) (hc : c.Balanced false h) {l : Line} {stop next : Nat}
    (hl : l ∈ c.lines start stop next) (hjump : l.op.isJump = true) :
    ∃ l' ∈ c.lines start stop next, l'.offset = l.operands.headD 0 := by
  obtain ⟨k, hmark⟩ := exists_height hl h
  have hflow : ∃ k', (l.operands.headD 0, k') ∈ l.flows k := by
    obtain ⟨pos, offset, op, operands⟩ := l
    cases op <;> first | exact ⟨_, List.mem_cons_self ..⟩ | cases hjump
  obtain ⟨k', hflow⟩ := hflow
  obtain ⟨l', hmem, heq⟩ := (hc.flows hmark _ hflow).exists_mark hfalls
  exact ⟨l', (List.of_mem_zip hmem).1, heq⟩

end Code

/-! ### Functions -/

section Functions

variable {e : Extent} {op : Opcode} {operands : List Nat}

/-- The instructions of a function that was laid out without a way out. -/
theorem Code.Writes.jumps (h : c.Writes f) (hbalanced : c.Balanced false .ground) (hfalls : c.falls = false)
    (hsmall : f.code.size < capacity 4) : ∀ i ∈ (walk f.code).instructions, i.op.isJump = true →
      ∃ j ∈ (walk f.code).instructions, j.offset = i.first := by
  intro i hi hjump
  obtain ⟨l, hl, rfl⟩ := h.exists_line hi
  obtain ⟨l', hl', htarget⟩ := Code.exists_target hfalls hbalanced hl hjump
  refine ⟨l'.instruction, h.instruction_mem hl', ?_⟩
  -- The target is an offset in the code, so four bytes are enough for it.
  have hin : l'.In f.code := by
    rw [h.code]
    exact c.in_lines 0 0 l' hl'
  have hlt : l'.offset < capacity 4 := Nat.lt_trans (Array.getElem?_eq_some_iff.1 hin.byte).1 hsmall
  have hcut : l.instruction.first = l.operands.headD 0 % capacity 4 := by
    obtain ⟨pos, offset, op, operands⟩ := l
    cases op <;> first | rfl | cases hjump
  rw [hcut, ← htarget, Nat.mod_eq_of_lt hlt]
  rfl

theorem Code.Writes.positions_eq (h : c.Writes f) :
    f.positions.entries.map (·.1) = (walk f.code).instructions.map (·.offset) := by
  rw [h.positions, PositionTable.entries_mark (c.consecutive_lines 0 0 0) rfl, h.walk_eq]
  simp [Line.instruction, Function.comp_def]

theorem Code.Writes.back_eq (h : c.Writes f) :
    (walk f.code).instructions.back? = (c.lines 0 0 0).getLast?.map Line.instruction := by
  rw [h.walk_eq]
  simp

/-- Whether an instruction names a variable or a constant. -/
def Opcode.names (op : Opcode) : Bool := op.isLocal || op.isGlobal || op.takesConstant || op == .getBuiltin

theorem Opcode.plain_of_names (h : op.names = true) : op.isJump = false ∧ op ≠ .suspend := by
  cases op <;> simp_all [Opcode.names, Opcode.isJump, Opcode.isLocal, Opcode.isGlobal, Opcode.takesConstant]

/-- A function whose instructions make sense, apart from one that ends the run. -/
theorem Code.Writes.wellFormed {last : Opcode} (h : c.Writes f) (hbalanced : c.Balanced false .ground)
    (hfalls : c.falls = false) (hlast : ∃ l, (c.lines 0 0 0).getLast? = some l ∧ l.op = last)
    (hlines : ∀ l ∈ c.lines 0 0 0, l.op.Sound k ⟨globals, f.locals, m⟩ cs n l.operands ∨
      (l.op = .suspend ∧ last = .suspend ∧ (c.lines 0 0 0).getLast? = some l)) : f.WellFormed last globals n cs := by
  -- An instruction that names a variable or a constant has operands that make sense.
  have hnames : ∀ i ∈ (walk f.code).instructions, i.op.names = true →
      ∃ operands, i.op.Sound k ⟨globals, f.locals, m⟩ cs n operands ∧ i.first = operands.headD 0 ∧
        (i.op.isPart = false → i.operands = operands) := by
    intro i hi hnames
    obtain ⟨l, hl, rfl⟩ := h.exists_line hi
    obtain ⟨hjump, hsuspend⟩ := Opcode.plain_of_names hnames
    have hline := (hlines l hl).resolve_right fun hend => hsuspend hend.1
    refine ⟨l.operands, hline, hline.first hjump, fun hpart => ?_⟩
    rcases hline.cut hjump with hfits | hcut
    · exact cutOperands_of_fit hfits
    · rw [show l.op.isPart = false from hpart] at hcut
      cases hcut.1
  refine ⟨?_, h.jumps hbalanced hfalls, ?_, fun i hi hop => ?_, fun i hi hop => ?_, fun i hi hop => ?_,
    fun i hi hop => ?_, fun i hi hop => ?_, fun i hi hop => ?_, fun i hi hop => ?_, h.positions_eq⟩
  · rw [h.walk_eq]
  · obtain ⟨l, hl, rfl⟩ := hlast
    exact ⟨l.instruction, by rw [h.back_eq, hl, Option.map_some], rfl⟩
  · obtain ⟨l, hl, rfl⟩ := h.exists_line hi
    rcases hlines l hl with hline | ⟨-, hsuspend, hend⟩
    · exact absurd hop hline.ne_suspend
    · exact ⟨hsuspend, by rw [h.back_eq, hend, Option.map_some]⟩
  · obtain ⟨operands, hline, hfirst, -⟩ := hnames i hi (by simp [Opcode.names, hop])
    rw [hfirst]
    exact hline.local hop
  · obtain ⟨operands, hline, hfirst, -⟩ := hnames i hi (by simp [Opcode.names, hop])
    rw [hfirst]
    exact hline.global hop
  · obtain ⟨operands, hline, hfirst, -⟩ := hnames i hi (by simp [Opcode.names, hop])
    rw [hop] at hline
    rw [hfirst]
    exact hline.builtin
  · obtain ⟨operands, hline, hfirst, -⟩ := hnames i hi (by simp [Opcode.names, hop])
    obtain ⟨j, rest, rfl, hj, -⟩ := hline.uses hop
    rw [hfirst]
    exact hj
  · obtain ⟨operands, hline, -, hall⟩ := hnames i hi (by simp [Opcode.names, hop, Opcode.takesConstant])
    have hoperands := hall (by rw [hop]; rfl)
    rw [hop] at hline
    obtain ⟨j, m, g, rfl, -, hg, hbelow⟩ := hline.closure
    rw [Instruction.first, Instruction.second, hoperands]
    exact ⟨g, hg, hbelow⟩
  · obtain ⟨operands, hline, hfirst, -⟩ := hnames i hi (by simp [Opcode.names, hop, Opcode.takesConstant])
    rw [hop] at hline
    obtain ⟨j, v, rfl, -, hv, hclosed⟩ := hline.const
    intro g hg
    rw [hfirst, List.headD_cons, hv, Option.some.injEq] at hg
    exact hclosed g hg

end Functions

/-! ### Programs -/

theorem Function.Sound.wellFormed (h : f.Sound o k globals cs n m) : f.WellFormed .ret globals n cs := by
  obtain ⟨c, hwrites, hsound, -⟩ := h
  refine hwrites.wellFormed hsound.balanced hsound.ends ?_ fun l hl => .inl (hsound.line hl)
  obtain ⟨l, hl, hlast⟩ := Code.exists_last hsound.ends hsound.balanced 0 0 0
  refine ⟨l, hl, ?_⟩
  -- What ends a function is a return, since the run ends elsewhere.
  have hline := hsound.line (List.mem_of_getLast? hl)
  cases hop : l.op <;> rw [hop] at hlast <;> first | rfl | exact absurd hop hline.ne_suspend | cases hlast

theorem Program.Sound.wellFormed {ss : List Stmt} {p : Program} (h : p.Sound o ss k globals) :
    p.WellFormed globals := by
  refine ⟨?_, fun i f hf => ?_⟩
  · obtain ⟨c, hwrites, hlocals, hoperands, ⟨hbalanced, hafter⟩, -⟩ := h.main
    have hend : (c.ending.lines 0 0 0).getLast? = some ⟨Pos.unknown, 0 + c.size, .suspend, []⟩ := by
      simp [Code.ending]
    have hall : c.ending.Balanced false .ground := by
      refine ⟨hbalanced, rfl, ?_⟩
      rw [hafter]
      exact ⟨Nat.le_refl 0, Nat.le_refl 0, fun h => by cases h⟩
    have hlines : ∀ l ∈ c.ending.lines 0 0 0,
        l.op.Sound k ⟨globals, p.main.locals, 0⟩ p.constants p.constants.size l.operands ∨
          (l.op = .suspend ∧ Opcode.suspend = .suspend ∧ (c.ending.lines 0 0 0).getLast? = some l) := by
      intro l hl
      rcases List.mem_append.1 hl with hl | hl
      · rw [hlocals]
        exact .inl (hoperands.lines (fun _ target hop => Opcode.sound_jump hop target) 0 0 0 l hl)
      · cases List.mem_singleton.1 hl
        exact .inr ⟨rfl, rfl, hend⟩
    exact hwrites.wellFormed hall rfl ⟨_, hend, rfl⟩ hlines
  · obtain ⟨m, hsound⟩ := h.functions i f hf
    exact hsound.wellFormed

/-- What a compilation makes is well formed, with equal constants merged or not. -/
theorem wellFormed_of_compile (o : CompileOptions) (files : FileSet) {symbols : SymbolTable} (file : File) (h : Heap)
    {p : Program} (hsymbols : symbols.Initial) (hmaps : o.modules.ProvidesMaps)
    (hok : (compile o files symbols file h).result = .ok p) :
    p.WellFormed ((compile o files symbols file h).symbols.slots root) :=
  (sound_of_compile hsymbols hmaps o.modules.passes_any (Stmt.allPass_any file.stmts) hok).wellFormed

theorem wellFormed_of_compile_importing :
    (compile .importing {} (SymbolTable.withBuiltins.defineGlobal "start").2 .importing {}).program.WellFormed 4 := by
  have hok := Compilation.result_eq
    (c := compile .importing {} (SymbolTable.withBuiltins.defineGlobal "start").2 .importing {}) (by decide +kernel)
  have hslots : (compile .importing {} (SymbolTable.withBuiltins.defineGlobal "start").2 .importing {}).symbols.slots root =
      4 := by decide +kernel
  have hformed := wellFormed_of_compile .importing {} .importing {} (.defineGlobal .withBuiltins "start")
    CompileOptions.providesMaps_importing hok
  rwa [hslots] at hformed

end ScriptEngine
