import ScriptEngine.Proofs.Compiler.Files
import ScriptEngine.Proofs.Compiler.Sound
import ScriptEngine.Proofs.Program.Merging
/-!
# Programs that make sense

`Program.Sound` asks of a program that its main function and all functions among its constants name
variables and constants that are there. Main statements: merging equal constants keeps this
(`Program.Merges.sound`), so it holds of every program that a compilation makes (`sound_of_compile`).
-/

namespace ScriptEngine

open CompileM (maxWide)
open SymbolTable (root)

variable {c : Code} {o : CompileOptions} {f g : Function} {h : Heap} {ss : List Stmt} {globals n n' : Nat}
  {ρ : Nat → Nat} {p : Program} {k : Screen} {symbols : SymbolTable}

/-- The main function, which does some statements, and the functions among the constants name what is
there. A function among the constants refers to constants before it. -/
structure Program.Sound (o : CompileOptions) (ss : List Stmt) (k : Screen) (globals : Nat) (p : Program) : Prop where
  main : ∃ c : Code, c.ending.Writes p.main ∧ p.main.locals = 0 ∧
    c.All (Opcode.Sound k ⟨globals, 0, 0⟩ p.constants p.constants.size) ∧ c.Lifts false .ground .ground ∧ c.Comes o ss
  functions : ∀ (i : Nat) f, p.constants[i]? = some (.function f) → ∃ m, f.Sound o k globals p.constants i m

/-! ### New numbers of constants -/

section Renumber

variable {e : Extent} {cs cs' : Array Value} {m : Nat} {op : Opcode} {operands : List Nat}

theorem Opcode.Sound.uses (h : op.Sound k e cs n operands) : op.Uses n operands := by
  intro hop
  unfold Opcode.Sound at h
  split at h <;> first
    | exact ⟨_, _, rfl, h.1.1, h.1.2⟩
    | exact h.elim
    | cases hop

theorem Opcode.takes_renumber : op.takes (op.renumber ρ operands) = op.takes operands := by
  cases op <;> rfl

theorem Opcode.takesCells_renumber : op.takesCells (op.renumber ρ operands) = op.takesCells operands := by
  cases op with
  | closure => cases operands <;> rfl
  | _ => rfl

theorem Code.after_renumber (h : Height) : (c.renumber ρ).after h = c.after h := by
  induction c generalizing h with
  | instr pos op operands => simp only [renumber, after, Height.after, Opcode.takes_renumber, Opcode.takesCells_renumber]
  | seq a b iha ihb => rw [renumber, after, after, iha, ihb]
  | skip pos branch body ih => cases branch <;> rfl
  | choose pos yes no ihy ihn => exact ihy h.pop
  | nop | loop | leave => rfl

theorem Code.Balanced.renumber {inLoop : Bool} {h : Height} (hc : c.Balanced inLoop h) :
    (c.renumber ρ).Balanced inLoop h := by
  induction c generalizing inLoop h with
  | nop => trivial
  | leave pos isBreak => exact hc
  | instr pos op operands =>
    refine ⟨hc.1, ?_⟩
    rw [Height.Suffices, Opcode.takes_renumber, Opcode.takesCells_renumber]
    exact hc.2
  | seq a b iha ihb => exact ⟨iha hc.1, by rw [after_renumber]; exact ihb hc.2⟩
  | skip pos branch body ih =>
    obtain ⟨hpos, hbody, hafter⟩ := hc
    refine ⟨hpos, ih hbody, ?_⟩
    rw [after_renumber, hafter]
    cases branch <;> rfl
  | choose pos yes no ihy ihn =>
    obtain ⟨hpos, hyes, hno, hafter⟩ := hc
    exact ⟨hpos, ihy hyes, ihn hno, by rw [after_renumber, after_renumber, hafter]⟩
  | loop pos head tests body post ihh ihb ihp =>
    obtain ⟨hground, ⟨hhead, hafter⟩, ⟨hbody, hround⟩, hpost, hbetween⟩ := hc
    exact ⟨hground, ⟨ihh hhead, by rw [after_renumber, hafter]⟩, ⟨ihb hbody, by rw [after_renumber, hround]⟩,
      ihp hpost, by rw [after_renumber, hbetween]⟩

theorem Code.falls_renumber : (c.renumber ρ).falls = c.falls := by
  induction c with
  | seq a b iha ihb => exact ihb
  | _ => rfl

theorem Code.Writes.renumber (h : c.Writes f) (hg : f.Renumbered n ρ g) (huses : c.All (Opcode.Uses n)) :
    (c.renumber ρ).Writes g := by
  have hrest := hg.rest
  refine ⟨hg.code c h.code huses, ?_, ?_⟩
  · rw [hrest, lines_renumber, PositionTable.mark, List.foldl_map]
    exact h.positions
  · rw [hrest]
    exact h.captured

theorem Code.Writes.instruction_mem (h : c.Writes f) {l : Line} (hl : l ∈ c.lines 0 0 0) :
    l.instruction ∈ (walk f.code).instructions := by
  rw [h.walk_eq]
  exact List.mem_toArray.2 (List.mem_map_of_mem hl)

/-- New numbers of constants make no difference to captured variables. -/
theorem Function.CapturesBelow.renumber (h : f.CapturesBelow m) (hf : c.Writes f) (hg : (c.renumber ρ).Writes g) :
    g.CapturesBelow m := by
  intro i hi hfree
  obtain ⟨l', hl', rfl⟩ := hg.exists_line hi
  rw [Code.lines_renumber] at hl'
  obtain ⟨l, hl, rfl⟩ := List.mem_map.1 hl'
  have hsame : l.renumber ρ = l := by
    obtain ⟨pos, offset, op, operands⟩ := l
    cases op <;> first | rfl | cases hfree
  rw [hsame] at hfree ⊢
  exact h _ (hf.instruction_mem hl) hfree

/-- The first `n` constants stand under new numbers below `n'` as far as the code of functions is
concerned. -/
def Transfers (ρ : Nat → Nat) (n n' : Nat) (cs cs' : Array Value) : Prop :=
  ∀ i v, i < n → cs[i]? = some v → ρ i < n' ∧ ρ i ≤ i ∧ ∃ u, cs'[ρ i]? = some u ∧ (v.IsClosed → u.IsClosed) ∧
    ∀ f, v = .function f → ∃ g, u = .function g ∧ ∀ m, f.CapturesBelow m → g.CapturesBelow m

theorem Opcode.Sound.renumber (h : op.Sound k e cs n operands) (ht : Transfers ρ n n' cs cs') :
    op.Sound k e cs' n' (op.renumber ρ operands) := by
  unfold Opcode.Sound at h
  split at h
  case h_1 i =>
    obtain ⟨⟨hi, hwide⟩, v, hv, hclosed⟩ := h
    obtain ⟨hlt, hle, u, hu, himp, -⟩ := ht i v hi hv
    exact ⟨⟨hlt, Nat.le_trans hle hwide⟩, u, hu, himp hclosed⟩
  case h_2 i m =>
    obtain ⟨⟨hi, hwide⟩, hm, f, hf, hbelow⟩ := h
    obtain ⟨hlt, hle, u, hu, -, himp⟩ := ht i _ hi hf
    obtain ⟨g, rfl, hg⟩ := himp f rfl
    exact ⟨⟨hlt, Nat.le_trans hle hwide⟩, hm, g, hu, hg m hbelow⟩
  all_goals first | exact h | exact h.elim

theorem Function.Sound.renumber (h : f.Sound o k globals cs n m) (hn : n ≤ cs.size) (hg : f.Renumbered cs.size ρ g)
    (ht : Transfers ρ n n' cs cs') : g.Sound o k globals cs' n' m := by
  obtain ⟨c, hwrites, hsound, hbody⟩ := h
  have huses : c.All (Opcode.Uses cs.size) := hsound.operands.imp fun _ _ hop => hop.uses.mono hn
  have hlocals : g.locals = f.locals := by rw [hg.rest]
  refine ⟨c.renumber ρ, hwrites.renumber hg huses, ⟨?_, hsound.balanced.renumber, ?_⟩, hbody.renumber ρ⟩
  · rw [hlocals]
    exact hsound.operands.renumber fun _ _ hop => hop.renumber ht
  · rw [Code.falls_renumber]
    exact hsound.ends

end Renumber

/-! ### Merged constants -/

section Merges

variable {q : Program} {v w : Value}

namespace Dedup

theorem Alike.symm (halike : Alike h v w) : Alike h w v := by
  rcases halike with rfl | ⟨key, hv, hw⟩
  · exact .inl rfl
  · exact .inr ⟨key, hw, hv⟩

/-- A constant with the key of a function is a function with the same code. -/
theorem Alike.function (halike : Alike h (.function f) w) : ∃ g, w = .function g ∧ g.code = f.code := by
  rcases halike with rfl | ⟨key, hkey, hw⟩
  · exact ⟨f, rfl, rfl⟩
  cases hkey
  cases w with
  | function g =>
    simp only [keyOf, Option.some.injEq, ConstantKey.function.injEq] at hw
    exact ⟨g, rfl, Array.toList_inj.1 hw.1⟩
  | frozenMap a => simp [keyOf] at hw
  | _ => cases hw

/-- Only a function has the key of a function. -/
theorem Alike.ne_function (halike : Alike h v w) (hv : ∀ f, v ≠ .function f) (g : Function) : w ≠ .function g := by
  rintro rfl
  obtain ⟨f, rfl, -⟩ := halike.symm.function
  exact hv f rfl

end Dedup

namespace Program

theorem Merges.transfers (hm : p.Merges h ρ q) (hp : p.Sound o ss k globals) (hn : n ≤ p.constants.size)
    (hlt : ∀ i < n, ρ i < n') : Transfers ρ n n' p.constants q.constants := by
  intro i v hi hv
  obtain ⟨w, u, hu, hrenumbered, halike⟩ := hm.found i v hv
  have hsize : i < p.constants.size := Nat.lt_of_lt_of_le hi hn
  refine ⟨hlt i hi, hm.small i hsize, u, hu, ?_⟩
  by_cases hfunction : ∃ f, v = .function f
  · obtain ⟨f, rfl⟩ := hfunction
    obtain ⟨g, rfl, hg⟩ := hrenumbered
    obtain ⟨g', rfl, hcode⟩ := halike.function
    have hbelow : ∀ m, f.CapturesBelow m → g'.CapturesBelow m := by
      intro m hm
      obtain ⟨_, c, hwrites, hsound, -⟩ := hp.functions i f hv
      have huses : c.All (Opcode.Uses p.constants.size) :=
        hsound.operands.imp fun _ _ hop => hop.uses.mono (Nat.le_of_lt hsize)
      rw [Function.CapturesBelow, hcode]
      exact hm.renumber hwrites (hwrites.renumber hg huses)
    refine ⟨fun hclosed g'' hg'' => ?_, fun f' hf' => ?_⟩
    · cases hg''
      exact hbelow 0 (hclosed f rfl)
    · cases hf'
      exact ⟨g', rfl, hbelow⟩
  · have hne : ∀ f, v ≠ .function f := fun f hf => hfunction ⟨f, hf⟩
    have hsame : w = v := by
      cases v <;> first | exact hrenumbered | exact absurd rfl (hne _)
    rw [hsame] at halike
    exact ⟨fun _ => Value.isClosed_of_ne (halike.ne_function hne), fun f hf => absurd hf (hne f)⟩

/-- Merging equal constants keeps a program that makes sense so. -/
theorem Merges.sound (hm : p.Merges h ρ q) (hp : p.Sound o ss k globals) : q.Sound o ss k globals := by
  refine ⟨?_, fun κ u hu => ?_⟩
  · obtain ⟨c, hwrites, hlocals, hoperands, ⟨hbalanced, hafter⟩, hcomes⟩ := hp.main
    have hlt : ∀ i < p.constants.size, ρ i < q.constants.size := by
      intro i hi
      obtain ⟨_, _, hu, -⟩ := hm.found i _ (Array.getElem?_eq_getElem hi)
      exact (Array.getElem?_eq_some_iff.1 hu).1
    have htransfers := hm.transfers hp (Nat.le_refl _) hlt
    have huses : c.ending.All (Opcode.Uses p.constants.size) :=
      ⟨hoperands.imp fun _ _ hop => hop.uses, Opcode.uses_nothing rfl⟩
    refine ⟨c.renumber ρ, hwrites.renumber hm.main huses, ?_, ?_, ⟨hbalanced.renumber, ?_⟩, hcomes.renumber ρ⟩
    · rw [hm.main.rest]
      exact hlocals
    · exact hoperands.renumber fun _ _ hop => hop.renumber htransfers
    · rw [Code.after_renumber, hafter]
  · obtain ⟨i, v, hv, rfl, hrenumbered, hfresh⟩ := hm.origin κ _ hu
    have hi := (Array.getElem?_eq_some_iff.1 hv).1
    cases v with
    | function f =>
      obtain ⟨g, hg, hrenumbered⟩ := hrenumbered
      cases hg
      obtain ⟨m, hf⟩ := hp.functions i f hv
      exact ⟨m, hf.renumber (Nat.le_of_lt hi) hrenumbered (hm.transfers hp (Nat.le_of_lt hi) hfresh)⟩
    | _ => cases hrenumbered

/-- A program that makes sense refers to earlier constants only. -/
theorem Sound.laidOut (hp : p.Sound o ss k globals) : p.LaidOut := by
  refine ⟨?_, fun i v hv => ?_⟩
  · obtain ⟨c, hwrites, -, hoperands, -⟩ := hp.main
    exact ⟨c.ending, hwrites.code, hoperands.imp fun _ _ hop => hop.uses, Opcode.uses_nothing rfl⟩
  · cases v with
    | function f =>
      obtain ⟨m, c, hwrites, hsound, -⟩ := hp.functions i f hv
      exact ⟨c, hwrites.code, hsound.operands.imp fun _ _ hop => hop.uses⟩
    | _ => trivial

end Program

end Merges

/-! ### Compiled programs -/

/-- Outside all functions there are only globals. -/
theorem SymbolTable.extent_root (t : SymbolTable) : t.extent root = ⟨t.slots root, 0, 0⟩ := by
  have hnone : t.parentOf root = none := by
    cases hparent : t.parentOf root with
    | none => rfl
    | some p => exact absurd p.2 (Nat.not_lt_zero _)
  have hout : t.enclosing root = none := by rw [SymbolTable.enclosing, hnone]
  rw [SymbolTable.extent, hout]
  rfl

theorem Stage.ready_initial (h : symbols.Initial) (functions : Nat) : (Stage.initial symbols functions).Ready o k := by
  refine ⟨⟨h.housed, h.hosts⟩, fun i f hf => ?_, fun name f hf => ?_⟩
  · simp [Stage.initial] at hf
  · cases hf

/-- The program of lowered statements makes sense. -/
theorem Lowers.sound_toProgram (files : FileSet) {functions : Nat} {σ : Stage}
    (h : Lowers o .main (.stmts ss) (.initial symbols functions) c σ) (hsymbols : symbols.Initial)
    (hmaps : o.modules.ProvidesMaps) (hmodules : o.modules.Passes k) (hpass : (Phrase.stmts ss).passes k = true) :
    (c.toProgram files σ).Sound o ss k (σ.symbols.slots root) := by
  have hready : (Stage.initial symbols functions).Ready o k := Stage.ready_initial hsymbols functions
  obtain ⟨hallows, hσ⟩ := h.sound hmodules hmaps hready hpass
  have hscope : σ.scope = root := (h.moves hready.housed).scope
  rw [Stage.Allows, Stage.extent, hscope, SymbolTable.extent_root] at hallows
  exact ⟨⟨c, ⟨rfl, rfl, rfl⟩, rfl, hallows, h.balanced hready.housed 0 fun _ => rfl, h.comes hready.housed rfl⟩,
    hσ.stocked.functions⟩

/-- A compiled program makes sense, with equal constants merged or not. -/
theorem sound_of_compile {files : FileSet} {file : File} (hsymbols : symbols.Initial) (hmaps : o.modules.ProvidesMaps)
    (hmodules : o.modules.Passes k) (hfile : file.passes k = true)
    (hok : (compile o files symbols file h).result = .ok p) :
    p.Sound o file.stmts k ((compile o files symbols file h).symbols.slots root) := by
  obtain ⟨c, σ, hlowers, hsymbols', -, hp⟩ := lowers_of_compile hok
  have hplain := hlowers.sound_toProgram files hsymbols hmaps hmodules hfile
  rw [hsymbols', hp]
  split
  · exact (Program.dedup_merges hplain.laidOut (compile o files symbols file h).heap).sound hplain
  · exact hplain

/-! ### A program with functions -/

/-- A module that exports `func(n) { return func(k) { n += k; return n } }`. -/
def File.counters : File where
  name := "counters"
  stmts :=
    [.exportValue Pos.unknown (.funcOf [⟨"n", Pos.unknown⟩] false
      [.ret Pos.unknown (some (.funcOf [⟨"k", Pos.unknown⟩] false
        [.assignOf (.name "n") (.combine .add) (.name "k"), .ret Pos.unknown (some (.name "n"))]))])]

/-- `f := import("counters")(start); m := {}; for i := 0; i < 2; i++ { m.last = f(i); if m.last > 1 { break } }`. -/
def File.importing : File where
  name := "main"
  stmts :=
    [.assignOf (.name "f") .define (.callOf (.importModule Pos.unknown "counters") [.name "start"] false),
     .assignOf (.name "m") .define (.map Pos.unknown []),
     .loopOf (some (.assignOf (.name "i") .define (.int Pos.unknown 0)))
       (some (.binaryOf (.name "i") (.arith .less) (.int Pos.unknown 2)))
       (some (.incDecOf (.name "i") true))
       [.assignOf (.select Pos.unknown (.name "m") "last") .assign (.callOf (.name "f") [.name "i"] false),
        .ifOf none (.binaryOf (.select Pos.unknown (.name "m") "last") (.arith .greater) (.int Pos.unknown 1))
         [.breakLoop Pos.unknown] none]]

/-- The program can import the module. -/
def CompileOptions.importing : CompileOptions := { modules := ({} : ModuleTable).addSource "counters" .counters }

theorem CompileOptions.providesMaps_importing : CompileOptions.importing.modules.ProvidesMaps := by
  intro name v hv
  rw [CompileOptions.importing, ModuleTable.addSource, ModuleTable.insert, ModuleTable.find?, Dict.find?_insert] at hv
  split at hv <;> cases hv

end ScriptEngine
