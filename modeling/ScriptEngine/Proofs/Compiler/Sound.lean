import ScriptEngine.Proofs.Compiler.Operands
/-!
# Compiled code makes sense

Main statement: the code of a phrase names only variables and constants that are there, and so does the
code of every function that has become a constant on the way (`Lowers.sound`).
-/

namespace ScriptEngine

open CompileM (maxWide maxNarrow)

variable {c : Code} {o : CompileOptions} {ctx : Context} {f : Function} {operands : List Nat} {g : Nat}
  {opcode : Opcode} {k : Screen} {σ σ' σ1 σ2 : Stage} {v : Value}

variable {cs : Array Value} {a : Code} {e : Extent} {m n : Nat} {pos : Pos}
open SymbolTable (root Evolves)

/-- Whether all calls and targets in a phrase are as asked. -/
def Phrase.passes (k : Screen) : Phrase → Bool
  | expr e | selectors e => e.passes k
  | exprs es => Expr.allPass k es
  | entries es => MapEntry.allPass k es
  | bound _ e | condition e => Expr.boundPasses k e
  | stmt s => s.passes k
  | optional s => Stmt.optionalPasses k s
  | stmts ss => Stmt.allPass k ss
  | block b => b.passes k

namespace Stage

/-! ### Constants -/

/-- The instructions of the code name variables and constants that are there. -/
def Allows (k : Screen) (σ : Stage) (c : Code) : Prop :=
  c.All (Opcode.Sound k σ.extent σ.constants σ.constants.size)

theorem Allows.later (h : σ.Allows k c) (hσ : σ.Housed) (hlater : σ.Proceeds o σ') : σ'.Allows k c :=
  h.sound ((hlater.moves hσ).extent_le hσ) hlater.kept hlater.kept.size_le

/-- Every function among the constants makes sense, and so do the functions of modules, which capture
nothing. -/
structure Stocked (o : CompileOptions) (k : Screen) (σ : Stage) : Prop where
  functions : ∀ (i : Nat) f, σ.constants[i]? = some (.function f) →
    ∃ m, f.Sound o k (σ.symbols.slots root) σ.constants i m
  imported : ∀ name f, σ.imported.lookup name = some f →
    f.Sound o k (σ.symbols.slots root) σ.constants σ.constants.size 0

/-- New names make no difference to the constants. -/
theorem Stocked.evolves (h : σ.Stocked o k) (hσ : σ.Housed) (hconstants : σ'.constants = σ.constants)
    (himported : σ'.imported = σ.imported) (hevolves : Evolves σ.symbols σ'.symbols) : σ'.Stocked o k := by
  have hglobals := hevolves.later.peak root (Nat.lt_of_le_of_lt (Nat.zero_le _) hσ.hosts.known)
  refine ⟨fun i f hf => ?_, fun name f hf => ?_⟩
  · rw [hconstants] at hf ⊢
    obtain ⟨m, hm⟩ := h.functions i f hf
    exact ⟨m, hm.mono hglobals (.refl _) (Nat.le_refl _)⟩
  · rw [himported] at hf
    rw [hconstants]
    exact (h.imported name f hf).mono hglobals (.refl _) (Nat.le_refl _)

theorem Stocked.addConstant (h : σ.Stocked o k)
    (hv : ∀ f, v = .function f → ∃ m, f.Sound o k (σ.symbols.slots root) σ.constants σ.constants.size m) :
    (σ.addConstant v).Stocked o k := by
  have hkept := KeptIn.push σ.constants v
  refine ⟨fun i f hf => ?_, fun name f hf => ?_⟩
  · have hf : (σ.constants.push v)[i]? = some (.function f) := hf
    rw [Array.getElem?_push] at hf
    split at hf
    · next hi =>
      obtain ⟨m, hm⟩ := hv f (Option.some.inj hf)
      rw [hi]
      exact ⟨m, hm.mono (Nat.le_refl _) hkept (Nat.le_refl _)⟩
    · obtain ⟨m, hm⟩ := h.functions i f hf
      exact ⟨m, hm.mono (Nat.le_refl _) hkept (Nat.le_refl _)⟩
  · exact (h.imported name f hf).mono (Nat.le_refl _) hkept hkept.size_le

/-- The code that pushes the constant that was added last. -/
theorem allows_constant (pos : Pos) (hroom : σ.constants.size ≤ maxWide) (hv : v.IsClosed)
    (hlater : (σ.addConstant v).Proceeds o σ') : σ'.Allows k (.instr pos .const [σ.constants.size]) := by
  refine ⟨⟨?_, hroom⟩, v, hlater.kept.last, hv⟩
  exact Nat.lt_of_lt_of_le (by simp [Stage.addConstant]) hlater.kept.size_le

end Stage

theorem Function.Sound.isClosed (h : f.Sound o k g cs n 0) : (Value.function f).IsClosed := by
  intro f' hf'
  cases hf'
  exact h.capturesBelow

theorem Value.isClosed_of_ne (hv : ∀ f, v ≠ .function f) : v.IsClosed := fun f hf => absurd hf (hv f)

theorem Expr.literal?_ne {e : Expr} (h : e.literal? = some (pos, v)) (f : Function) : v ≠ .function f := by
  cases e <;> cases h <;> exact fun h => by cases h

namespace Stage

/-! ### Blocks and functions -/

/-- A scope that was opened in the one at hand still stands in it. -/
theorem Housed.parentOf_enter (hσ : σ.Housed) {isBlock : Bool} (hevolves : Evolves (σ.enter isBlock).symbols σ'.symbols) :
    σ'.symbols.parentOf σ.newScope = some ⟨σ.scope, hσ.hosts.known⟩ ∧
      (σ'.symbols.scope σ.newScope).isBlock = isBlock := by
  have hknown : σ.newScope < (σ.enter isBlock).symbols.scopes.size := (hσ.enter isBlock).hosts.known
  have hlater := hevolves.later
  refine ⟨?_, ?_⟩
  · rw [hlater.parentOf hknown]
    exact SymbolTable.parentOf_fork hσ.hosts.known isBlock
  · rw [hlater.isBlock _ hknown]
    show ((σ.symbols.fork σ.scope isBlock).2.scope σ.symbols.scopes.size).isBlock = isBlock
    rw [SymbolTable.scope_fork]

/-- Code in a block uses the variables of what the block stands in. -/
theorem Housed.extent_leave (hσ : σ.Housed) (hmoves : (σ.enter true).Moves σ') :
    (σ'.returnTo σ.scope).extent = σ'.extent := by
  obtain ⟨hparent, hblock⟩ := hσ.parentOf_enter hmoves.evolves
  have hscope : σ'.scope = σ.newScope := hmoves.scope
  rw [extent, extent, hscope]
  exact (SymbolTable.extent_block hparent hblock).symm

/-- The variables of a function that was opened in the scope at hand. -/
theorem Housed.extent_function (hσ : σ.Housed) (hevolves : Evolves (σ.enter false).symbols σ'.symbols)
    (hscope : σ'.scope = σ.newScope) : σ'.extent =
      ⟨σ'.symbols.slots root, σ'.symbols.slots σ.newScope, (σ'.capturesOf σ.newScope).length⟩ := by
  obtain ⟨hparent, hblock⟩ := hσ.parentOf_enter hevolves
  rw [extent, hscope, SymbolTable.extent_function hparent hblock]
  rfl

/-- What a function captures are variables of the code around it. -/
theorem Housed.has_captures (hσ : σ.Housed) (hσ' : σ'.Housed) (hevolves : Evolves (σ.enter false).symbols σ'.symbols) :
    ∀ x ∈ σ'.capturesOf σ.newScope, (σ'.returnTo σ.scope).Has x := by
  intro x hx
  obtain ⟨hknown, -, p, hlt, hparent, hwithin⟩ := hσ'.table.captures σ.newScope x (by simpa [capturesOf] using hx)
  obtain ⟨hparent', -⟩ := hσ.parentOf_enter hevolves
  rw [hparent'] at hparent
  cases hparent
  exact ⟨hknown, hwithin⟩

/-- A module has its own variables and captures nothing, since it stands in a scope without variables. -/
theorem extent_module (hσ : σ'.Housed) (hmoves : σ.enterModule.Moves σ') :
    σ'.extent = ⟨σ'.symbols.slots root, σ'.symbols.slots σ.enterModule.scope, 0⟩ := by
  let t := σ.symbols.newRoot.2
  have hknown : σ.symbols.scopes.size < t.scopes.size := by simp [t, SymbolTable.newRoot, SymbolTable.addScope]
  have hlater := hmoves.later
  have hopened : t.scopes.size < σ.enterModule.symbols.scopes.size := by
    simp [Stage.enterModule, SymbolTable.fork, SymbolTable.addScope, t]
  have hinside : σ'.symbols.parentOf t.scopes.size = some ⟨σ.symbols.scopes.size, hknown⟩ := by
    rw [hlater.parentOf hopened]
    exact SymbolTable.parentOf_fork hknown false
  have hfunction : (σ'.symbols.scope t.scopes.size).isBlock = false := by
    rw [hlater.isBlock _ hopened]
    show ((t.fork σ.symbols.scopes.size false).2.scope t.scopes.size).isBlock = false
    rw [SymbolTable.scope_fork]
  have houtside : σ'.symbols.enclosing σ.symbols.scopes.size = none := by
    have hnone : t.parentOf σ.symbols.scopes.size = none := by
      simp [SymbolTable.parentOf, t, SymbolTable.newRoot, SymbolTable.scope_addScope]
    rw [SymbolTable.enclosing, ((SymbolTable.later_addScope t _).trans hlater).parentOf hknown, hnone]
  have hnone : (σ'.symbols.scope t.scopes.size).captures = #[] := by
    refine Array.eq_empty_iff_forall_not_mem.2 fun x hx => ?_
    obtain ⟨-, hstorage, p, hlt, hparent, hwithin⟩ := hσ.table.captures t.scopes.size x hx
    cases hinside.symm.trans hparent
    rw [SymbolTable.extent, houtside] at hwithin
    rcases hstorage with hstorage | hstorage <;> simp [Symbol.Within, hstorage] at hwithin
  have hscope : σ'.scope = t.scopes.size := hmoves.scope
  rw [extent, hscope, SymbolTable.extent_function hinside hfunction, hnone]
  rfl

end Stage

/-! ### Functions -/

/-- A body with its return makes sense as a whole. -/
theorem Code.sound_closing {leaves : Bool} (pos : Pos)
    (hoperands : c.All (Opcode.Sound k e cs n)) (hlifts : c.Lifts false .ground .ground)
    (hfalls : leaves = true → c.falls = false) : (c.closing pos leaves).Sound k e cs n := by
  obtain ⟨hbalanced, hafter⟩ := hlifts
  rw [Code.closing]
  split
  · next hleaves => exact ⟨hoperands, hbalanced, hfalls hleaves⟩
  · refine ⟨⟨hoperands, Nat.zero_le 1⟩, ⟨hbalanced, rfl, ?_⟩, rfl⟩
    rw [hafter]
    exact ⟨Nat.le_refl 0, Nat.le_refl 0, fun h => by cases h⟩

theorem Lowers.comes {ss : List Stmt} (h : Lowers o ctx (.stmts ss) σ c σ') (hσ : σ.Housed)
    (hloop : ctx.inLoop = false) : c.Comes o ss :=
  ⟨ctx, σ, c, σ', id, h, hσ, hloop, c.renumber_id.symm⟩

/-- The code of the body of a function. -/
theorem Lowers.comes_block {body : Block} (h : Lowers o ctx (.block body) σ c σ') (hσ : σ.Housed)
    (hloop : ctx.inLoop = false) : ∃ ss, c.Comes o ss := by
  cases h with
  | blockNil => exact ⟨[], (Lowers.stmtsNil).comes hσ hloop⟩
  | block hne hbody => exact ⟨_, hbody.comes (hσ.enter true) hloop⟩

/-! ### The main statement -/

namespace Stage

/-- A compilation may go on from here. -/
structure Ready (o : CompileOptions) (k : Screen) (σ : Stage) : Prop where
  housed : σ.Housed
  stocked : σ.Stocked o k

section

variable (h : σ.Ready o k)
include h

theorem Ready.renames (hrest : σ.Renames σ') : σ'.Ready o k :=
  ⟨h.housed.renames hrest, h.stocked.evolves h.housed hrest.constants hrest.imported (hrest.moves h.housed).evolves⟩

theorem Ready.addConstant
    (hv : ∀ f, v = .function f → ∃ m, f.Sound o k (σ.symbols.slots root) σ.constants σ.constants.size m) :
    (σ.addConstant v).Ready o k := ⟨h.housed.addConstant v, h.stocked.addConstant hv⟩

theorem Ready.addText (s : String) : (σ.addConstant (.string s)).Ready o k :=
  h.addConstant fun f hf => by cases hf

theorem Ready.enter (isBlock : Bool) : (σ.enter isBlock).Ready o k :=
  ⟨h.housed.enter isBlock, h.stocked.evolves h.housed rfl rfl (h.housed.evolves_enter isBlock)⟩

theorem Ready.enterModule : σ.enterModule.Ready o k :=
  ⟨h.housed.enterModule, h.stocked.evolves h.housed rfl rfl σ.evolves_enterModule⟩

end

/-- Back in a scope from which the one at hand was opened. -/
theorem Ready.returnTo (h : σ'.Ready o k) (hσ : σ.Housed) (hevolves : Evolves σ.symbols σ'.symbols) :
    (σ'.returnTo σ.scope).Ready o k :=
  ⟨⟨h.housed.table, hσ.hosts.later hevolves.later⟩, h.stocked.functions, h.stocked.imported⟩

theorem Ready.addFunction (h : σ.Ready o k) : σ.addFunction.Ready o k :=
  ⟨⟨h.housed.table, h.housed.hosts⟩, h.stocked.functions, h.stocked.imported⟩

theorem Ready.addSound (h : σ.Ready o k)
    (hf : f.Sound o k (σ.symbols.slots root) σ.constants σ.constants.size m) : (σ.addConstant (.function f)).Ready o k := by
  refine h.addConstant fun g hg => ?_
  cases hg
  exact ⟨m, hf⟩

/-- The function of a module is kept. -/
theorem Ready.import (h : σ.Ready o k) (name : String)
    (hf : f.Sound o k (σ.symbols.slots root) σ.constants σ.constants.size 0) :
    ({ σ with imported := (name, f) :: σ.imported }).Ready o k := by
  refine ⟨⟨h.housed.table, h.housed.hosts⟩, h.stocked.functions, fun key g hg => ?_⟩
  rw [List.lookup_cons] at hg
  split at hg
  · cases hg
    exact hf
  · exact h.stocked.imported key g hg

/-- The code that makes a function of the constant that was added last. -/
theorem allows_makeFunction {xs : List SymbolId}
    (hσ : (σ.addConstant (.function f)).Ready o k) (hxs : ∀ x ∈ xs, (σ.addConstant (.function f)).Has x)
    (hbelow : f.CapturesBelow xs.length) (hroom : σ.constants.size ≤ maxWide) (hcount : xs.length ≤ maxNarrow)
    (h : (σ.addConstant (.function f)).captureAll pos xs = some (c, σ')) :
    σ'.Allows k (c.makeFunction pos σ.constants.size xs.length) := by
  have hlater := (renames_captureAll h).proceeds o
  rw [Code.makeFunction]
  split
  · next hnone =>
    refine allows_constant pos hroom ?_ hlater
    intro g hg
    cases hg
    rwa [hnone] at hbelow
  · refine ⟨sound_captureAll hσ.housed hxs h, ⟨?_, hroom⟩, hcount, f, hlater.kept.last, hbelow⟩
    exact Nat.lt_of_lt_of_le (by simp [Stage.addConstant]) hlater.kept.size_le

/-- Code that may stand at hand in a compilation that may go on from here. -/
def Admits (o : CompileOptions) (k : Screen) (σ : Stage) (c : Code) : Prop := σ.Allows k c ∧ σ.Ready o k

theorem Admits.seq {b : Code} (ha : σ.Admits o k a) (hlater : σ.Proceeds o σ') (hb : σ'.Admits o k b) :
    σ'.Admits o k (a.seq b) := ⟨⟨ha.1.later ha.2.housed hlater, hb.1⟩, hb.2⟩

/-- One phrase after the other. -/
theorem Admits.both {b : Code} {x y : Bool} (ha : σ.Ready o k → x = true → σ1.Admits o k a) (hlater : σ1.Proceeds o σ2)
    (hb : σ1.Ready o k → y = true → σ2.Admits o k b) (hσ : σ.Ready o k) (hpass : (x && y) = true) :
    σ2.Admits o k (a.seq b) := by
  obtain ⟨hx, hy⟩ := Bool.and_eq_true_iff.1 hpass
  have ha := ha hσ hx
  exact ha.seq hlater (hb ha.2 hy)

theorem Admits.instr {op : Opcode} (ha : σ.Admits o k a) (pos : Pos)
    (hop : op.Sound k σ.extent σ.constants σ.constants.size operands) :
    σ.Admits o k (a.seq (.instr pos op operands)) := ⟨⟨ha.1, hop⟩, ha.2⟩

/-- The code that pushes a name. -/
theorem Ready.admits_text (h : σ.Ready o k) (pos : Pos) (s : String) (hroom : σ.constants.size ≤ maxWide) :
    (σ.addConstant (.string s)).Admits o k (.instr pos .const [σ.constants.size]) :=
  ⟨allows_constant pos hroom (Value.isClosed_of_ne fun f h => by cases h) (.refl o _), h.addText s⟩

/-- Back in the scope around a block. -/
theorem Admits.leave (h : σ'.Admits o k c) (hσ : σ.Housed) (hlater : (σ.enter true).Proceeds o σ') :
    (σ'.returnTo σ.scope).Admits o k c := by
  have hmoves := hlater.moves (hσ.enter true)
  rw [Admits, Allows, hσ.extent_leave hmoves]
  exact ⟨h.1, h.2.returnTo hσ ((hσ.evolves_enter true).trans hmoves.evolves)⟩

/-- A variable gets a value. -/
theorem Admits.store {w : Code} {isDefine : Bool} {x : SymbolId} (h : σ.Admits o k a)
    (hx : σ.Has x) (hm : k.target m = true) (hstore : σ.store pos isDefine m x = some (w, σ')) :
    σ'.Admits o k (a.seq w) := by
  have hrenames := renames_store hstore
  have hle := (hrenames.moves h.2.housed).extent_le h.2.housed
  exact h.seq (hrenames.proceeds o) ⟨sound_store (hx.2.mono hle rfl) hm hstore, h.2.renames hrenames⟩

end Stage

section Sound

variable {φ : Phrase}

theorem BinaryOp.sound_instruction {op : BinaryOp} (h : op.instruction? = some (opcode, operands)) :
    opcode.Sound k e cs n operands := by
  cases op with
  | arith op =>
    cases h
    exact ⟨op, rfl⟩
  | equal | notEqual =>
    cases h
    trivial
  | logicalAnd | logicalOr => cases h

theorem UnaryOp.sound_instruction {op : UnaryOp} (h : op.instruction? = some opcode) : opcode.Sound k e cs n [] := by
  cases op <;> cases h <;> trivial

theorem Phrase.passes_assign {e1 e2 : Expr} {op : AssignOp}
    (h : (Phrase.stmt (.assign pos [e1] [e2] op)).passes k = true) :
    k.target e1.selectorCount = true ∧ e1.passes k = true ∧ e2.passes k = true := by
  simpa [Phrase.passes, Stmt.passes, Expr.allPass] using h

/-- The code of a phrase names variables and constants that are there. -/
theorem Lowers.sound (h : Lowers o ctx φ σ c σ') (hmodules : o.modules.Passes k) (hmaps : o.modules.ProvidesMaps)
    (hσ : σ.Ready o k) (hpass : φ.passes k = true) : σ'.Admits o k c := by
  induction h with
  | ident hresolve hfits =>
    obtain ⟨-, -, hwithin⟩ := hσ.housed.resolve hresolve
    exact ⟨Stage.sound_load hwithin hfits, hσ.renames (Stage.renames_resolve hresolve)⟩
  | literal hliteral hroom =>
    have hplain := Expr.literal?_ne hliteral
    exact ⟨Stage.allows_constant _ hroom (Value.isClosed_of_ne hplain) (.refl o _),
      hσ.addConstant fun f hf => absurd hf (hplain f)⟩
  | bool =>
    refine ⟨?_, hσ⟩
    split <;> trivial
  | undefined | boundNone | exprsNil | entriesNil | selectorsEnd | breakLoop | continueLoop | exportMain | empty
  | optionalNone | conditionNone | stmtsNil | blockNil => exact ⟨trivial, hσ⟩
  | ret => exact ⟨Nat.zero_le 1, hσ⟩
  | plus _ ih | paren _ ih | boundSome _ ih | conditionSome _ ih | optionalSome _ ih | blockStmt _ ih => exact ih hσ hpass
  | stmtsLast _ _ ih => exact ih hσ (Bool.and_eq_true_iff.1 hpass).1
  | array _ hcount ih | map _ hcount ih => exact (ih hσ hpass).instr _ hcount
  | error _ ih | immutable _ ih | exprStmt _ ih => exact (ih hσ hpass).instr _ trivial
  | unary hop _ ih => exact (ih hσ hpass).instr _ (UnaryOp.sound_instruction hop)
  | retValue _ _ ih => exact (ih hσ hpass).instr _ (Nat.le_refl 1)
  | exportModule _ _ ih => exact ⟨⟨(ih hσ hpass).1, trivial, Nat.le_refl 1⟩, (ih hσ hpass).2⟩
  | binary hop _ hrhs iha ihb =>
    exact .both iha hrhs.proceeds (fun hσ h => (ihb hσ h).instr _ (BinaryOp.sound_instruction hop)) hσ hpass
  | index _ hkey iha ihb =>
    exact .both iha hkey.proceeds (fun hσ h => (ihb hσ h).instr _ trivial) hσ hpass
  | logical _ _ hrest iha ihb | exprsCons _ hrest iha ihb | stmtsCons _ _ hrest iha ihb =>
    exact .both iha hrest.proceeds ihb hσ hpass
  | selectorsIndex _ hrest iha ihb =>
    exact .both iha hrest.proceeds ihb hσ (Bool.and_comm .. ▸ hpass)
  | call _ hargs hcount iha ihb =>
    obtain ⟨hcall, hpass⟩ := Bool.and_eq_true_iff.1 hpass
    exact .both iha hargs.proceeds (fun hσ h => (ihb hσ h).instr _ ⟨hcount, _, rfl, hcall⟩) hσ hpass
  | select _ hroom ih =>
    have ha := ih hσ hpass
    exact ha.seq (.text o _ _) ((ha.2.admits_text _ _ hroom).instr _ trivial)
  | slice _ hlow hhigh iha ihb ihc =>
    have hlater := hlow.proceeds.trans hhigh.proceeds
    exact .both iha hlater (.both ihb hhigh.proceeds fun hσ h => (ihc hσ h).instr _ trivial) hσ hpass
  | cond _ hyes hno iha ihb ihc =>
    exact .both iha (hyes.proceeds.trans hno.proceeds) (.both ihb hno.proceeds ihc) hσ hpass
  | func hbody hf hcaptures hroom hcapture hcount ih =>
    rename_i body a σ1 pos b σ2 ctx σ params variadic f captures
    have hopened := hσ.enter false
    have hrenames := Stage.renames_defineAll (σ.enter false) params
    have hparams := hrenames.moves hopened.housed
    have hinner := hopened.renames hrenames
    obtain ⟨ha, hσ1⟩ := ih hinner hpass
    have hmoves := hbody.moves hinner.housed
    have hevolves := hparams.evolves.trans hmoves.evolves
    have hextent := hσ.housed.extent_function hevolves (hmoves.scope.trans hparams.scope)
    rw [Stage.Allows, hextent] at ha
    have hfunction : f.Sound o k (σ1.symbols.slots root) σ1.constants σ1.constants.size captures.length := by
      rw [hf, hcaptures]
      obtain ⟨ss, hcomes⟩ := hbody.comes_block hinner.housed rfl
      exact ⟨_, ⟨rfl, rfl, rfl⟩, Code.sound_closing _ ha (hbody.balanced hinner.housed 0 fun _ => rfl) hbody.falls,
        ⟨a, ss, _, _, hcomes, rfl⟩⟩
    have hback := hσ1.returnTo hσ.housed ((hσ.housed.evolves_enter false).trans hevolves)
    have hready := hback.addFunction.addSound hfunction
    have hxs := hσ.housed.has_captures hσ1.housed hevolves
    rw [← hcaptures] at hxs
    have hcode : σ2.Allows k (b.makeFunction pos ((σ1.returnTo σ.scope).addFunction).constants.size captures.length) :=
      Stage.allows_makeFunction hready hxs hfunction.capturesBelow hroom hcount hcapture
    exact ⟨hcode, hready.renames (Stage.renames_captureAll hcapture)⟩
  | importNative hmodule hroom =>
    obtain ⟨a, rfl⟩ := hmaps _ _ hmodule
    exact ⟨Stage.allows_constant _ hroom (Value.isClosed_of_ne fun f h => by cases h) (.refl o _),
      hσ.addConstant fun f hf => by cases hf⟩
  | importKnown _ _ hknown hroom =>
    have hfunction := hσ.stocked.imported _ _ hknown
    exact ⟨⟨Stage.allows_constant _ hroom hfunction.isClosed (.refl o _), Nat.zero_le _, false, rfl, k.call_none⟩,
      hσ.addSound hfunction⟩
  | importNew hmodule hcycle hnew hbody hf hroom ih =>
    rename_i name a σ1 ctx pos σ file f
    have hopened := hσ.enterModule
    obtain ⟨ha, hσ1⟩ := ih hopened (hmodules _ _ hmodule)
    have hmoves := hbody.moves hopened.housed
    have hfunction : f.Sound o k (σ1.symbols.slots root) σ1.constants σ1.constants.size 0 := by
      rw [Stage.Allows, Stage.extent_module hσ1.housed hmoves] at ha
      rw [hf]
      exact ⟨_, ⟨rfl, rfl, rfl⟩, Code.sound_closing _ ha (hbody.balanced hopened.housed 0 fun _ => rfl) hbody.falls,
        ⟨a, _, _, _, hbody.comes hopened.housed rfl, rfl⟩⟩
    have hback := hσ1.returnTo hσ.housed (σ.evolves_enterModule.trans hmoves.evolves)
    let τ : Stage := { (σ1.returnTo σ.scope).addFunction with imported := (name, f) :: σ1.imported }
    have hready : τ.Ready o k := hback.addFunction.import name hfunction
    have hcode : (τ.addConstant (.function f)).Allows k (.instr pos .const [τ.constants.size]) :=
      Stage.allows_constant pos hroom hfunction.isClosed (.refl o _)
    exact ⟨⟨hcode, Nat.zero_le _, false, rfl, k.call_none⟩, hready.addSound hfunction⟩
  | entriesCons hroom hhead htail iha ihb =>
    have hrest := Stage.Admits.both iha htail.proceeds ihb (hσ.addText _) hpass
    exact (hσ.admits_text _ _ hroom).seq (hhead.proceeds.trans htail.proceeds) hrest
  | selectorsSelect hroom hrest ih =>
    exact (hσ.admits_text _ _ hroom).seq hrest.proceeds (ih (hσ.addText _) hpass)
  | define hplace hnew hvalue hfunction hstore ih =>
    rename_i name ctx e2 a σ1 pos w σ2 e1 σ
    obtain ⟨htarget, -, hpass⟩ := Phrase.passes_assign hpass
    rw [Expr.selectorCount_of_place hplace] at htarget
    have ha := ih (hσ.renames (σ.renames_lookedUp name)) hpass
    have hdefined := σ1.renames_define name
    have hmoved := ha.1.later ha.2.housed (hdefined.proceeds o)
    exact Stage.Admits.store ⟨hmoved, ha.2.renames hdefined⟩ (ha.2.housed.owns_define name).1 htarget hstore
  | defineFunction hplace hnew hvalue hfunction hstore ih =>
    rename_i name ctx e2 a σ1 pos w σ2 e1 σ
    obtain ⟨htarget, -, hpass⟩ := Phrase.passes_assign hpass
    rw [Expr.selectorCount_of_place hplace] at htarget
    have hlooked := hσ.renames (σ.renames_lookedUp name)
    have hdefined := hlooked.renames ((σ.lookedUp name).renames_define name)
    have hhas := (hlooked.housed.owns_define name).1.moves hdefined.housed (hvalue.moves hdefined.housed)
    exact (ih hdefined hpass).store hhas htarget hstore
  | assign hplace hresolve hvalue hselectors hstore iha ihb =>
    obtain ⟨htarget, hpass1, hpass2⟩ := Phrase.passes_assign hpass
    rw [Expr.selectorCount_of_place hplace] at htarget
    have hfound := hσ.renames (Stage.renames_resolve hresolve)
    have ha := iha hfound hpass2
    have hb := ihb ha.2 hpass1
    have hhas := Stage.Has.moves (hσ.housed.resolve hresolve).2 hfound.housed
      ((hvalue.proceeds.trans hselectors.proceeds).moves hfound.housed)
    have hstored := hb.store hhas htarget hstore
    exact ha.seq (hselectors.proceeds.trans ((Stage.renames_store hstore).proceeds o)) hstored
  | combine hplace hresolve hread hvalue hselectors hstore iha ihb ihc =>
    obtain ⟨htarget, hpass1, hpass2⟩ := Phrase.passes_assign hpass
    rw [Expr.selectorCount_of_place hplace] at htarget
    have hfound := hσ.renames (Stage.renames_resolve hresolve)
    have ha := iha hfound hpass1
    have hb := ihb ha.2 hpass2
    have hc := ihc hb.2 hpass1
    have hhas := Stage.Has.moves (hσ.housed.resolve hresolve).2 hfound.housed
      ((hread.proceeds.trans (hvalue.proceeds.trans hselectors.proceeds)).moves hfound.housed)
    have hlast := hselectors.proceeds.trans ((Stage.renames_store hstore).proceeds o)
    have hstored := hc.store hhas htarget hstore
    exact ha.seq (hvalue.proceeds.trans hlast) (hb.seq hlast ⟨⟨⟨_, rfl⟩, hstored.1⟩, hstored.2⟩)
  | incDec _ ih =>
    rw [Phrase.passes, Stmt.passes, Bool.and_eq_true] at hpass
    refine ih hσ ?_
    simp only [Phrase.passes, Stmt.passes, Expr.allPass, Expr.passes, hpass.1, hpass.2, List.all_cons, List.all_nil,
      Bool.and_true]
  | block _ hbody ih => exact (ih (hσ.enter true) hpass).leave hσ.housed hbody.proceeds
  | ifThen hinit hcond hbody iha ihb ihc =>
    have hlater := hcond.proceeds.trans hbody.proceeds
    have hall := Stage.Admits.both iha hlater
      (.both ihb hbody.proceeds fun hσ h => ihc hσ (Bool.and_eq_true_iff.1 h).1) (hσ.enter true) hpass
    exact hall.leave hσ.housed (hinit.proceeds.trans hlater)
  | ifElse hinit hcond hbody hother iha ihb ihc ihd | loop hinit hcond hbody hother iha ihb ihc ihd =>
    have hlast := hbody.proceeds.trans hother.proceeds
    have hrest := Stage.Admits.both ihb hlast (.both ihc hother.proceeds ihd)
    have hlater := hcond.proceeds.trans hlast
    exact (Stage.Admits.both iha hlater hrest (hσ.enter true) hpass).leave hσ.housed (hinit.proceeds.trans hlater)
  | forIn hdefine hiterable hbind hfits hitems hbody iha ihb =>
    rename_i σ key value
    obtain ⟨hpass1, hpass2⟩ := Bool.and_eq_true_iff.1 hpass
    cases hdefine
    have hinner := hσ.enter true
    have hit := (σ.enter true).renames_define ":it"
    have hdefined := hinner.renames hit
    have ha := iha hdefined hpass1
    have howns := (hinner.housed.owns_define ":it").moves hdefined.housed (hiterable.moves hdefined.housed)
    have hbound := Stage.renames_bind hbind
    have hmoved := hbound.moves ha.2.housed
    have hσ3 := ha.2.renames hbound
    have hhas := howns.1.moves ha.2.housed hmoved
    have hnamed := (Stage.renames_bindItems hitems).proceeds o
    have hσ4 := hσ3.renames (Stage.renames_bindItems hitems)
    have hd := ihb hσ4 hpass2
    have hlater := hnamed.trans hbody.proceeds
    have hb : Stage.Allows k _ _ := (Stage.sound_bind howns hbind).sound (hmoved.extent_le ha.2.housed)
      (.ofEq hbound.constants) (Nat.le_of_eq (congrArg Array.size hbound.constants.symm))
    have hload : ∀ pos, Stage.Allows k _ (.load pos _) := fun pos => Stage.sound_load hhas.2 hfits
    have hround := Stage.Admits.seq ⟨Stage.sound_bindItems hσ3.housed hhas hitems, hσ4⟩ hbody.proceeds hd
    have hrest := (hbound.proceeds o).trans hlater
    refine Stage.Admits.leave ?_ hσ.housed ((hit.proceeds o).trans (hiterable.proceeds.trans hrest))
    exact ⟨⟨ha.1.later ha.2.housed hrest, trivial, hb.later hσ3.housed hlater,
      ⟨(hload _).later hσ3.housed hlater, trivial⟩, hround.1, trivial⟩, hround.2⟩

end Sound

end ScriptEngine
