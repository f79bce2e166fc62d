import ScriptEngine.Proofs.Code.Execution
import ScriptEngine.Proofs.Code.Renumber
import ScriptEngine.Proofs.Compiler.Bounds
/-!
# What expressions without calls become

Compiling such an expression looks names up and adds literals to the constants, and nothing else. Its
code consists of instructions that work on values and read variables, and refers only to constants that
are there when it is finished (`Lowers.drawn`).
-/

namespace ScriptEngine

open CompileM (maxWide maxNarrow)

variable {c : Code} {operands : List Nat} {hi lo n : Nat} {op opcode : Opcode} {pos : Pos} {σ σ1 σ2 : Stage}

/-! ### Stages on the way -/

/-- A stage that is reached by looking names up and by adding literals. -/
inductive Stage.Later : Stage → Stage → Prop where
  | refl (σ : Stage) : Later σ σ
  | resolve {σ σ1 σ2 : Stage} {name : String} {x : SymbolId} {depth : Nat} (h : Later σ σ1)
      (hresolve : σ1.resolve name = some (x, depth, σ2)) : Later σ σ2
  | addConstant {σ σ1 : Stage} {v : Value} (h : Later σ σ1) (hv : v.IsLiteral) : Later σ (σ1.addConstant v)

namespace Stage.Later

theorem trans (h : Later σ σ1) (h' : Later σ1 σ2) : Later σ σ2 := by
  induction h' with
  | refl => exact h
  | resolve _ hresolve ih => exact ih.resolve hresolve
  | addConstant _ hv ih => exact ih.addConstant hv

theorem text (σ : Stage) (key : String) : Later σ (σ.addConstant (.string key)) := (refl σ).addConstant trivial

theorem constants (h : Later σ σ1) : KeptIn σ.constants σ1.constants := by
  induction h with
  | refl => exact KeptIn.refl _
  | resolve _ hresolve ih => exact ih.trans (KeptIn.ofEq ((renames_resolve hresolve).constants))
  | addConstant _ _ ih => exact ih.trans (KeptIn.push _ _)

end Stage.Later

/-- Whether a piece of a syntax tree consists of expressions that call, make and import nothing. -/
def Phrase.isFirstOrder : Phrase → Bool
  | .expr e | .selectors e => e.isFirstOrder
  | .exprs es => Expr.allFirstOrder es
  | .entries es => MapEntry.allFirstOrder es
  | .bound _ e => Expr.boundFirstOrder e
  | _ => false

/-! ### Instructions -/

/-- An instruction that works on values and reads variables. Its operands fit, and the number of a
constant is not below `lo`. -/
structure Opcode.Basic (lo : Nat) (op : Opcode) (operands : List Nat) : Prop where
  steady : op.isSteady = true
  fits : OperandsFit op.widths operands
  constant : op.takesConstant = true → ∃ k rest, operands = k :: rest ∧ lo ≤ k

/-- Such an instruction whose constant is one of the first `hi`. -/
def Opcode.Draws (lo hi : Nat) (op : Opcode) (operands : List Nat) : Prop :=
  op.Basic lo operands ∧ op.Uses hi operands

theorem Code.All.later {k : Nat} (h : c.All (Opcode.Draws lo n)) (hle : n ≤ k) :
    c.All (Opcode.Draws lo k) := h.imp fun _ _ hop => ⟨hop.1, hop.2.mono hle⟩

namespace Opcode

section

variable (hsteady : op.isSteady = true)
include hsteady

/-- An instruction that takes no constant. -/
theorem draws_plain (hconstant : op.takesConstant = false)
    (hfits : OperandsFit op.widths operands) : op.Draws lo hi operands :=
  ⟨⟨hsteady, hfits, fun h => by cases hconstant.symm.trans h⟩, uses_nothing hconstant⟩

theorem draws_none (hwidths : op.widths = []) (hconstant : op.takesConstant = false) : op.Draws lo hi [] :=
  draws_plain hsteady hconstant (by rw [hwidths]; trivial)

theorem draws_wide (hwidths : op.widths = [2]) (hconstant : op.takesConstant = false)
    (h : n ≤ maxWide) : op.Draws lo hi [n] :=
  draws_plain hsteady hconstant (by rw [hwidths]; exact ⟨Nat.lt_succ_of_le h, trivial⟩)

end

theorem draws_const (hlo : lo ≤ n) (hhi : n < hi) (h : n ≤ maxWide) : const.Draws lo hi [n] :=
  ⟨⟨rfl, ⟨Nat.lt_succ_of_le h, trivial⟩, fun _ => ⟨n, [], rfl, hlo⟩⟩, fun _ => ⟨n, [], rfl, hhi, h⟩⟩

theorem draws_bool (b : Bool) : (if b then pushTrue else pushFalse).Draws lo hi [] := by
  cases b <;> exact draws_none rfl rfl rfl

theorem draws_binary (op : Operator) : binary.Draws lo hi [op.code] := by
  refine draws_plain rfl rfl ⟨?_, trivial⟩
  cases op <;> decide

theorem draws_instruction {op : BinaryOp} (h : op.instruction? = some (opcode, operands)) :
    opcode.Draws lo hi operands := by
  cases op with
  | arith op =>
    cases h
    exact draws_binary op
  | equal | notEqual =>
    cases h
    exact draws_none rfl rfl rfl
  | logicalAnd | logicalOr => cases h

theorem draws_unary {op : UnaryOp} (h : op.instruction? = some opcode) : opcode.Draws lo hi [] := by
  cases op with
  | negate | logicalNot | complement =>
    cases h
    exact draws_none rfl rfl rfl
  | plus => cases h

end Opcode

open Opcode

theorem Code.draws_load {sym : Symbol} (hfits : sym.Fits) : (Code.load pos sym).All (Draws lo hi) := by
  rw [Symbol.Fits] at hfits
  rw [Code.load]
  cases hstorage : sym.storage with
  | global =>
    rw [hstorage] at hfits
    exact draws_wide rfl rfl rfl hfits
  | slot | builtin | captured =>
    rw [hstorage] at hfits
    exact draws_plain rfl rfl ⟨Nat.lt_succ_of_le hfits, trivial⟩

/-- Code that never leaves the loop around it. -/
def Code.Stays : Code → Prop
  | nop | instr _ _ _ => True
  | seq a b => a.Stays ∧ b.Stays
  | skip _ _ body => body.Stays
  | choose _ yes no => yes.Stays ∧ no.Stays
  | loop _ head _ _ post => head.Stays ∧ post.Stays
  | leave _ _ => False

/-! ### Expressions -/

/-- Code that is made while names are looked up and literals are added: it works on values and reads
variables, and its constants are new. -/
structure Stage.Drawn (lo : Nat) (σ σ' : Stage) (c : Code) : Prop where
  later : σ.Later σ'
  draws : lo ≤ σ.constants.size → c.All (Draws lo σ'.constants.size)
  stays : c.Stays

namespace Stage.Drawn

variable {a b : Code}

theorem nop (σ : Stage) : σ.Drawn lo σ .nop := ⟨.refl σ, fun _ => trivial, trivial⟩

theorem instr (hop : op.Draws lo σ.constants.size operands) :
    σ.Drawn lo σ (.instr pos op operands) := ⟨.refl σ, fun _ => hop, trivial⟩

theorem const {v : Value} (hv : v.IsLiteral) (hroom : σ.constants.size ≤ maxWide) :
    σ.Drawn lo (σ.addConstant v) (.instr pos .const [σ.constants.size]) :=
  ⟨(Later.refl σ).addConstant hv, fun hlo => draws_const hlo (by simp [Stage.addConstant]) hroom, trivial⟩

theorem text (key : String) (hroom : σ.constants.size ≤ maxWide) :
    σ.Drawn lo (σ.addConstant (.string key)) (.instr pos .const [σ.constants.size]) := const trivial hroom

/-- Constants are only ever added, so what is new later is new now. -/
theorem seq (ha : σ.Drawn lo σ1 a) (hb : σ1.Drawn lo σ2 b) : σ.Drawn lo σ2 (a.seq b) where
  later := ha.later.trans hb.later
  draws hlo := ⟨(ha.draws hlo).later hb.later.constants.size_le,
    hb.draws (Nat.le_trans hlo ha.later.constants.size_le)⟩
  stays := ⟨ha.stays, hb.stays⟩

theorem skip {branch : Branch} (hb : σ.Drawn lo σ1 b) : σ.Drawn lo σ1 (.skip pos branch b) :=
  ⟨hb.later, hb.draws, hb.stays⟩

theorem choose (ha : σ.Drawn lo σ1 a) (hb : σ1.Drawn lo σ2 b) : σ.Drawn lo σ2 (.choose pos a b) :=
  ⟨(ha.seq hb).later, (ha.seq hb).draws, (ha.seq hb).stays⟩

end Stage.Drawn

section

variable {o : CompileOptions} {ctx : Context} {φ : Phrase} {σ' : Stage}

/-- Compiling an expression looks names up and adds literals; its code works on values and reads
variables, and its constants are new. -/
theorem Lowers.drawn (h : Lowers o ctx φ σ c σ') (lo : Nat) (hφ : φ.isFirstOrder = true) : σ.Drawn lo σ' c := by
  induction h with
  | ident hresolve hfits => exact ⟨(Stage.Later.refl _).resolve hresolve, fun _ => Code.draws_load hfits, trivial⟩
  | literal hliteral hroom => exact .const (Expr.isLiteral_literal hliteral) hroom
  | bool => exact .instr (draws_bool _)
  | undefined | boundNone => exact .instr (draws_none rfl rfl rfl)
  | array _ hcount ih | map _ hcount ih => exact (ih hφ).seq (.instr (draws_wide rfl rfl rfl hcount))
  | binary hop _ _ iha ihb =>
    obtain ⟨ha, hb⟩ := Bool.and_eq_true_iff.1 hφ
    exact (iha ha).seq ((ihb hb).seq (.instr (draws_instruction hop)))
  | index _ _ iha ihb =>
    obtain ⟨ha, hb⟩ := Bool.and_eq_true_iff.1 hφ
    exact (iha ha).seq ((ihb hb).seq (.instr (draws_none rfl rfl rfl)))
  | logical _ _ _ iha ihb =>
    obtain ⟨ha, hb⟩ := Bool.and_eq_true_iff.1 hφ
    exact (iha ha).seq (ihb hb).skip
  | exprsCons _ _ iha ihb =>
    obtain ⟨ha, hb⟩ := Bool.and_eq_true_iff.1 hφ
    exact (iha ha).seq (ihb hb)
  | selectorsIndex _ _ iha ihb =>
    obtain ⟨hb, ha⟩ := Bool.and_eq_true_iff.1 hφ
    exact (iha ha).seq (ihb hb)
  | unary hop _ ih => exact (ih hφ).seq (.instr (draws_unary hop))
  | plus _ ih | paren _ ih | boundSome _ ih => exact ih hφ
  | error _ ih | immutable _ ih => exact (ih hφ).seq (.instr (draws_none rfl rfl rfl))
  | select _ hroom ih =>
    exact (ih hφ).seq ((Stage.Drawn.text _ hroom).seq (.instr (draws_none rfl rfl rfl)))
  | slice _ _ _ iha ihb ihc =>
    simp only [Phrase.isFirstOrder, Expr.isFirstOrder, Bool.and_eq_true] at hφ
    exact (iha hφ.1.1).seq ((ihb hφ.1.2).seq ((ihc hφ.2).seq (.instr (draws_none rfl rfl rfl))))
  | cond _ _ _ iha ihb ihc =>
    simp only [Phrase.isFirstOrder, Expr.isFirstOrder, Bool.and_eq_true] at hφ
    exact (iha hφ.1.1).seq ((ihb hφ.1.2).choose (ihc hφ.2))
  | exprsNil | entriesNil | selectorsEnd => exact .nop _
  | entriesCons hroom _ _ iha ihb =>
    obtain ⟨ha, hb⟩ := Bool.and_eq_true_iff.1 hφ
    exact (Stage.Drawn.text _ hroom).seq ((iha ha).seq (ihb hb))
  | selectorsSelect hroom _ ih => exact (Stage.Drawn.text _ hroom).seq (ih hφ)
  | _ => cases hφ

theorem Lowers.later (h : Lowers o ctx φ σ c σ') (hφ : φ.isFirstOrder = true) : σ.Later σ' := (h.drawn 0 hφ).later

end

end ScriptEngine
