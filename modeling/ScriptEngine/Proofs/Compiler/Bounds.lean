import ScriptEngine.Proofs.Compiler.Constants
import ScriptEngine.Proofs.Tables
/-!
# What a compilation changes

A compilation changes its table of symbols step by step, returns to the scope it came from and adds
constants (`Lowers.proceeds`). So the slots that instructions name are those of the function at hand, and
the number of a constant stands for the same value from then on.
-/

namespace ScriptEngine

open SymbolTable (Evolves Later)

variable {c : Code} {o : CompileOptions} {depth : Nat} {σ σ' : Stage}

namespace Stage

variable {σ1 σ2 : Stage} {name : String} {x : SymbolId} {pos : Pos}

/-- The table is in order, and variables can be defined in the scope at hand. -/
structure Housed (σ : Stage) : Prop where
  table : σ.symbols.Housed
  hosts : σ.symbols.Hosts σ.scope

/-- The table has changed step by step, and the scope at hand is the same. -/
structure Moves (σ σ' : Stage) : Prop where
  evolves : Evolves σ.symbols σ'.symbols
  scope : σ'.scope = σ.scope

namespace Moves

theorem refl (σ : Stage) : σ.Moves σ := ⟨.refl, rfl⟩

theorem of_eq (hsymbols : σ'.symbols = σ.symbols) (hscope : σ'.scope = σ.scope) : σ.Moves σ' :=
  ⟨hsymbols ▸ .refl, hscope⟩

theorem trans (h : σ.Moves σ1) (h' : σ1.Moves σ2) : σ.Moves σ2 :=
  ⟨h.evolves.trans h'.evolves, h'.scope.trans h.scope⟩

theorem later (h : σ.Moves σ') : Later σ.symbols σ'.symbols := h.evolves.later

end Moves

theorem Housed.moves (h : σ.Housed) (hmoves : σ.Moves σ') : σ'.Housed :=
  ⟨h.table.evolves hmoves.evolves, hmoves.scope ▸ h.hosts.later hmoves.later⟩

/-- The variables that code in the scope at hand can use. -/
def extent (σ : Stage) : Extent := σ.symbols.extent σ.scope

theorem Moves.extent_le (hmoves : σ.Moves σ') (h : σ.Housed) : σ.extent ≤ σ'.extent := by
  rw [extent, extent, hmoves.scope]
  exact hmoves.later.extent_le h.hosts.known

/-! ### What the operations on a stage do to its table -/

theorem Housed.resolve (h : σ.Housed) (hresolve : σ.resolve name = some (x, depth, σ')) :
    σ.Moves σ' ∧ x < σ'.symbols.symbols.size ∧ (σ'.symbol x).Within σ'.extent := by
  obtain ⟨⟨id, d, symbols⟩, hfound, heq⟩ := Option.map_eq_some_iff.1 hresolve
  cases heq
  have hevolves := SymbolTable.evolves_resolveFrom h.table.closed hfound
  have hlooked := SymbolTable.resolveFrom_spec h.table.closed hfound
  exact ⟨⟨hevolves, rfl⟩, hlooked.known, (h.table.evolves hevolves).within hlooked.again⟩

/-- Only the names have changed, and the scope at hand is the same. -/
structure Renames (σ σ' : Stage) : Prop where
  constants : σ'.constants = σ.constants
  functions : σ'.functions = σ.functions
  imported : σ'.imported = σ.imported
  moves : σ.Housed → σ.Moves σ'

theorem Renames.refl (σ : Stage) : σ.Renames σ := ⟨rfl, rfl, rfl, fun _ => .refl σ⟩

theorem Renames.trans (h : σ.Renames σ1) (h' : σ1.Renames σ') : σ.Renames σ' where
  constants := h'.constants.trans h.constants
  functions := h'.functions.trans h.functions
  imported := h'.imported.trans h.imported
  moves hσ := (h.moves hσ).trans (h'.moves (hσ.moves (h.moves hσ)))

theorem Housed.renames (hσ : σ.Housed) (h : σ.Renames σ') : σ'.Housed := hσ.moves (h.moves hσ)

theorem renames_resolve (h : σ.resolve name = some (x, depth, σ')) : σ.Renames σ' := by
  have hmoves := fun hσ : σ.Housed => (hσ.resolve h).1
  obtain ⟨r, -, heq⟩ := Option.map_eq_some_iff.1 h
  cases heq
  exact ⟨rfl, rfl, rfl, hmoves⟩

theorem renames_lookedUp (σ : Stage) (name : String) : σ.Renames (σ.lookedUp name) := by
  rw [lookedUp]
  split
  · next h => exact renames_resolve h
  · exact .refl σ

theorem renames_define (σ : Stage) (name : String) : σ.Renames (σ.define name).2 :=
  ⟨rfl, rfl, rfl, fun hσ => ⟨.single (.define hσ.hosts name), rfl⟩⟩

theorem renames_defineNew (σ : Stage) (name : String) : σ.Renames ((σ.lookedUp name).define name).2 :=
  (σ.renames_lookedUp name).trans (renames_define _ name)

theorem renames_markAssigned (σ : Stage) (x : SymbolId) : σ.Renames (σ.markAssigned x) :=
  ⟨rfl, rfl, rfl, fun _ => ⟨.single (.markAssigned x), rfl⟩⟩

theorem renames_store {isDefine : Bool} {n : Nat} (h : σ.store pos isDefine n x = some (c, σ')) :
    σ.Renames σ' := by
  rw [store] at h
  split at h
  · rw [storeIn] at h
    split at h <;> cases h
    case h_3 | h_4 => exact renames_markAssigned σ x
    all_goals exact .refl σ
  · cases h

theorem renames_bind (h : σ.bind pos x = some (c, σ')) : σ.Renames σ' := by
  simp only [bind] at h
  split at h
  · split at h <;> cases h
    · exact .refl σ
    · exact renames_markAssigned σ x
  · cases h

/-- A name is blank, or a variable is defined for it. -/
theorem bindItem_cases {op : Opcode} {i : Ident} (h : σ.bindItem pos x op i = some (c, σ')) :
    (i.name = "_" ∧ c = .nop ∧ σ' = σ) ∨ (i.name ≠ "_" ∧ ((σ.define i.name).2.symbol x).Fits ∧ ∃ w,
      (σ.define i.name).2.bind i.pos (σ.define i.name).1 = some (w, σ') ∧
      c = (Code.load pos ((σ.define i.name).2.symbol x)).seq ((Code.instr pos op []).seq w)) := by
  rw [bindItem] at h
  split at h
  · next hname =>
    obtain ⟨hfits, h⟩ := Option.ite_none_right_eq_some.1 h
    obtain ⟨⟨w, σ1⟩, hbind, heq⟩ := Option.map_eq_some_iff.1 h
    cases heq
    exact .inr ⟨hname, hfits, w, hbind, rfl⟩
  · next hname =>
    cases h
    exact .inl ⟨Decidable.not_not.1 hname, rfl, rfl⟩

theorem bindItems_some {key value : Ident} (h : σ.bindItems pos x key (some value) = some (c, σ')) :
    ∃ a σ1 b, σ.bindItem pos x .iterKey key = some (a, σ1) ∧
      σ1.bindItem pos x .iterValue value = some (b, σ') ∧ c = a.seq b := by
  obtain ⟨⟨a, σ1⟩, hkey, h⟩ := Option.bind_eq_some_iff.1 h
  obtain ⟨⟨b, σ2⟩, hvalue, h⟩ := Option.bind_eq_some_iff.1 h
  cases h
  exact ⟨a, σ1, b, hkey, hvalue, rfl⟩

theorem renames_bindItem {op : Opcode} {i : Ident} (h : σ.bindItem pos x op i = some (c, σ')) : σ.Renames σ' := by
  obtain ⟨-, -, rfl⟩ | ⟨-, -, w, hbind, -⟩ := bindItem_cases h
  · exact .refl _
  · exact (renames_define σ i.name).trans (renames_bind hbind)

theorem renames_bindItems {key : Ident} {value : Option Ident}
    (h : σ.bindItems pos x key value = some (c, σ')) : σ.Renames σ' := by
  cases value with
  | none => exact renames_bindItem h
  | some value =>
    obtain ⟨a, σ1, b, hkey, hvalue, -⟩ := bindItems_some h
    exact (renames_bindItem hkey).trans (renames_bindItem hvalue)

theorem renames_capture (h : σ.capture pos x = some (c, σ')) : σ.Renames σ' := by
  rw [capture] at h
  split at h
  · rw [captureIn] at h
    split at h
    · split at h <;> cases h
      · exact .refl σ
      · exact renames_markAssigned σ x
    all_goals
      cases h
      exact .refl σ
  · cases h

theorem renames_captureAll {xs : List SymbolId} (h : σ.captureAll pos xs = some (c, σ')) : σ.Renames σ' := by
  induction xs generalizing σ c with
  | nil =>
    cases h
    exact .refl _
  | cons x xs ih =>
    obtain ⟨⟨a, σ1⟩, hfirst, h⟩ := Option.bind_eq_some_iff.1 h
    obtain ⟨⟨b, σ2⟩, hrest, h⟩ := Option.bind_eq_some_iff.1 h
    cases h
    exact (renames_capture hfirst).trans (ih hrest)

theorem renames_defineAll (σ : Stage) (params : List Ident) : σ.Renames (σ.defineAll params) := by
  induction params generalizing σ with
  | nil => exact .refl σ
  | cons param rest ih => exact ((renames_define σ param.name).trans (renames_markAssigned _ _)).trans (ih _)

/-- The table after a new scope was opened. -/
theorem Housed.evolves_enter (h : σ.Housed) (isBlock : Bool) : Evolves σ.symbols (σ.enter isBlock).symbols :=
  .single (.fork h.hosts.known isBlock)

theorem Housed.enter (h : σ.Housed) (isBlock : Bool) : (σ.enter isBlock).Housed :=
  ⟨h.table.evolves (h.evolves_enter isBlock), h.hosts.fork isBlock⟩

/-- The table after the scope of a module was opened. -/
theorem evolves_enterModule (σ : Stage) : Evolves σ.symbols σ.enterModule.symbols := by
  refine (Relation.ReflTransGen.single SymbolTable.Step.newRoot).tail (.fork ?_ false)
  simp [SymbolTable.newRoot, SymbolTable.addScope]

theorem Housed.enterModule (h : σ.Housed) : σ.enterModule.Housed := by
  refine ⟨h.table.evolves σ.evolves_enterModule, SymbolTable.hosts_function ?_⟩
  simp

/-- A compilation has gone on: scopes and constants were added. -/
structure Proceeds (o : CompileOptions) (σ σ' : Stage) : Prop where
  moves : σ.Housed → σ.Moves σ'
  kept : KeptIn σ.constants σ'.constants
  adds : Adds o σ.constants σ'.constants

namespace Proceeds

variable {v : Value}

theorem refl (o : CompileOptions) (σ : Stage) : σ.Proceeds o σ := ⟨fun _ => .refl σ, .refl _, .refl o _⟩

theorem trans (h : σ.Proceeds o σ1) (h' : σ1.Proceeds o σ2) : σ.Proceeds o σ2 where
  moves hσ := (h.moves hσ).trans (h'.moves (hσ.moves (h.moves hσ)))
  kept := h.kept.trans h'.kept
  adds := h.adds.trans h'.adds

theorem addConstant (σ : Stage) (hv : v.IsConstant o) : σ.Proceeds o (σ.addConstant v) :=
  ⟨fun _ => .of_eq rfl rfl, .push _ _, .push hv⟩

theorem text (o : CompileOptions) (σ : Stage) (s : String) : σ.Proceeds o (σ.addConstant (.string s)) :=
  addConstant σ (.inl trivial)

/-- Back in the scope from which a block or a function was opened. -/
theorem leave {isBlock : Bool} (h : (σ.enter isBlock).Proceeds o σ') : σ.Proceeds o (σ'.returnTo σ.scope) :=
  ⟨fun hσ => ⟨(hσ.evolves_enter isBlock).trans (h.moves (hσ.enter isBlock)).evolves, rfl⟩, h.kept, h.adds⟩

/-- Back in the scope from which a module was opened. -/
theorem leaveModule (h : σ.enterModule.Proceeds o σ') : σ.Proceeds o (σ'.returnTo σ.scope) :=
  ⟨fun hσ => ⟨σ.evolves_enterModule.trans (h.moves hσ.enterModule).evolves, rfl⟩, h.kept, h.adds⟩

/-- A function becomes a constant. -/
theorem addFunction (h : σ.Proceeds o σ') {imported : List (String × Function)} {f : Function} :
    σ.Proceeds o ({ σ'.addFunction with imported }.addConstant (.function f)) where
  moves hσ := (h.moves hσ).trans (.of_eq rfl rfl)
  kept := h.kept.trans (.push _ _)
  adds := h.adds.trans (.push (.inr (.inl ⟨f, rfl⟩)))

end Proceeds

theorem Renames.proceeds (h : σ.Renames σ') (o : CompileOptions) : σ.Proceeds o σ' :=
  ⟨h.moves, .ofEq h.constants, fun _ hv => .inl (h.constants ▸ hv)⟩

theorem Housed.addConstant (h : σ.Housed) (v : Value) : (σ.addConstant v).Housed := h.moves (.of_eq rfl rfl)

theorem Housed.proceeds (hσ : σ.Housed) (h : σ.Proceeds o σ') : σ'.Housed := hσ.moves (h.moves hσ)

end Stage

section Lowers

variable {ctx : Context} {φ : Phrase}

open Stage in
/-- What is in order stays so, the scope at hand is the same at the end, and constants are added. -/
theorem Lowers.proceeds (h : Lowers o ctx φ σ c σ') : σ.Proceeds o σ' := by
  induction h with
  | ident hresolve => exact (renames_resolve hresolve).proceeds o
  | literal hliteral => exact .addConstant _ (.inl (Expr.isLiteral_literal hliteral))
  | importNative hmodule => exact .addConstant _ (.inr (.inr ⟨_, hmodule⟩))
  | importKnown => exact .addConstant _ (.inr (.inl ⟨_, rfl⟩))
  | bool | undefined | exprsNil | entriesNil | boundNone | selectorsEnd | breakLoop | continueLoop | ret
  | exportMain | empty | optionalNone | conditionNone | stmtsNil | blockNil => exact .refl o _
  | array _ _ ih | map _ _ ih | unary _ _ ih | plus _ ih | error _ ih | immutable _ ih | paren _ ih
  | boundSome _ ih | exprStmt _ ih | incDec _ ih | blockStmt _ ih | retValue _ _ ih | exportModule _ _ ih
  | optionalSome _ ih | conditionSome _ ih | stmtsLast _ _ ih => exact ih
  | binary _ _ _ iha ihb | logical _ _ _ iha ihb | call _ _ _ iha ihb | index _ _ iha ihb
  | exprsCons _ _ iha ihb | selectorsIndex _ _ iha ihb | stmtsCons _ _ _ iha ihb => exact iha.trans ihb
  | select _ _ ih => exact ih.trans (.text o _ _)
  | slice _ _ _ iha ihb ihc | cond _ _ _ iha ihb ihc => exact iha.trans (ihb.trans ihc)
  | func _ _ _ _ hcapture _ ih =>
    have hbody := ((renames_defineAll _ _).proceeds o).trans ih
    exact hbody.leave.addFunction.trans ((renames_captureAll hcapture).proceeds o)
  | importNew _ _ _ _ _ _ ih => exact ih.leaveModule.addFunction
  | entriesCons _ _ _ iha ihb => exact (Proceeds.text o _ _).trans (iha.trans ihb)
  | selectorsSelect _ _ ih => exact (Proceeds.text o _ _).trans ih
  | define _ _ _ _ hstore ih =>
    have hstored := (renames_define _ _).trans (renames_store hstore)
    exact ((renames_lookedUp _ _).proceeds o).trans (ih.trans (hstored.proceeds o))
  | defineFunction _ _ _ _ hstore ih =>
    exact ((renames_defineNew _ _).proceeds o).trans (ih.trans ((renames_store hstore).proceeds o))
  | assign _ hresolve _ _ hstore iha ihb =>
    have hvalue := ((renames_resolve hresolve).proceeds o).trans iha
    exact hvalue.trans (ihb.trans ((renames_store hstore).proceeds o))
  | combine _ hresolve _ _ _ hstore iha ihb ihc =>
    have hread := ((renames_resolve hresolve).proceeds o).trans iha
    exact hread.trans (ihb.trans (ihc.trans ((renames_store hstore).proceeds o)))
  | ifThen _ _ _ iha ihb ihc => exact (iha.trans (ihb.trans ihc)).leave
  | ifElse _ _ _ _ iha ihb ihc ihd | loop _ _ _ _ iha ihb ihc ihd =>
    exact (iha.trans (ihb.trans (ihc.trans ihd))).leave
  | forIn hdefine _ hbind _ hitems _ iha ihb =>
    cases hdefine
    have hbound := (renames_bind hbind).trans (renames_bindItems hitems)
    exact (((renames_define _ _).proceeds o).trans (iha.trans ((hbound.proceeds o).trans ihb))).leave
  | block _ _ ih => exact ih.leave

theorem Lowers.moves (h : Lowers o ctx φ σ c σ') (hσ : σ.Housed) : σ.Moves σ' := h.proceeds.moves hσ

theorem Lowers.housed (h : Lowers o ctx φ σ c σ') (hσ : σ.Housed) : σ'.Housed := hσ.proceeds h.proceeds

theorem Lowers.constants (h : Lowers o ctx φ σ c σ') : KeptIn σ.constants σ'.constants := h.proceeds.kept

end Lowers

end ScriptEngine
