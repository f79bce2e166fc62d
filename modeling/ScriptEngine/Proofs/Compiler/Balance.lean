import ScriptEngine.Proofs.Code.Heights
import ScriptEngine.Proofs.Compiler.Bounds
import ScriptEngine.Proofs.Screening
/-!
# Balanced code

The code of an expression puts one value on the stack, and the code of a statement leaves the stack as
it found it. Main statement: what a compilation makes is balanced (`Lowers.balanced`), and control gets
to its end only where the compilation goes on (`Lowers.falls`).
-/

namespace ScriptEngine

variable {op : BinaryOp} {inLoop : Bool} {branch : Branch} {c : Code} {o : CompileOptions} {ctx : Context} {e : Expr}
  {operands : List Nat} {xs : List SymbolId} {k n : Nat} {opcode : Opcode} {φ : Phrase} {pos : Pos} {σ σ' : Stage}

namespace Code

variable {a b d : Code} {h h1 h2 : Height}

/-- The code is balanced and takes one height to another. -/
def Lifts (c : Code) (inLoop : Bool) (h h' : Height) : Prop := c.Balanced inLoop h ∧ c.after h = h'

theorem lifts_nop (inLoop : Bool) (h : Height) : nop.Lifts inLoop h h := ⟨trivial, rfl⟩

/-- An instruction that takes no captured cells. -/
theorem lifts_instr {op : Opcode} (n k : Nat) (hjump : op.isJump = false) (hcells : op.takesCells operands = 0)
    (hcall : op = .call → k = 0) :
    (instr pos op operands).Lifts inLoop ⟨n + op.takes operands, k⟩ ⟨n + op.gives, k + op.givesCells⟩ := by
  refine ⟨⟨hjump, Nat.le_add_left _ _, ?_, hcall⟩, ?_⟩
  · rw [hcells]
    exact Nat.zero_le _
  · simp only [after, Height.after, hcells, Nat.add_sub_cancel, Nat.sub_zero]

/-- An instruction where no captured cells lie on the stack. -/
theorem lifts_op {op : Opcode} (n : Nat) (hjump : op.isJump = false) (hcells : op.takesCells operands = 0) :
    (instr pos op operands).Lifts inLoop ⟨n + op.takes operands, 0⟩ ⟨n + op.gives, 0 + op.givesCells⟩ :=
  lifts_instr n 0 hjump hcells fun _ => rfl

theorem lifts_const (pos : Pos) (index : Nat) (inLoop : Bool) (n : Nat) :
    (instr pos .const [index]).Lifts inLoop ⟨n, 0⟩ ⟨n + 1, 0⟩ := lifts_op n rfl rfl

theorem Lifts.seq (ha : a.Lifts inLoop h h1) (hb : b.Lifts inLoop h1 h2) : (seq a b).Lifts inLoop h h2 := by
  obtain ⟨ha, rfl⟩ := ha
  exact ⟨⟨ha, hb.1⟩, hb.2⟩

theorem Lifts.logical (hb : b.Lifts inLoop h h.push) (hbranch : branch ≠ .onFalsy) :
    (skip pos branch b).Lifts inLoop h.push h.push := by
  have hafter : ∀ k, (skip pos branch b).after k = k := by
    cases branch <;> first | exact fun _ => rfl | exact absurd rfl hbranch
  exact ⟨⟨Nat.succ_pos _, hb.1, by rw [hafter]; exact hb.2⟩, hafter _⟩

theorem Lifts.skip (hb : b.Lifts inLoop h h) : (skip pos .onFalsy b).Lifts inLoop h.push h :=
  ⟨⟨Nat.succ_pos _, hb.1, hb.2⟩, rfl⟩

theorem Lifts.choose (hb : b.Lifts inLoop h h1) (hc : c.Lifts inLoop h h1) :
    (choose pos b c).Lifts inLoop h.push h1 :=
  ⟨⟨Nat.succ_pos _, hb.1, hc.1, hc.2.trans hb.2.symm⟩, hb.2⟩

theorem Lifts.loop {tests : Bool} (ha : a.Lifts inLoop .ground ⟨tests.toNat, 0⟩) (hb : b.Lifts true .ground .ground)
    (hc : c.Lifts inLoop .ground .ground) : (loop pos a tests b c).Lifts inLoop .ground .ground :=
  ⟨⟨rfl, ha, hb, hc⟩, rfl⟩

end Code

/-! ### Phrases -/

theorem Expr.selectorCount_of_place {name : String} (h : e.place? = some (name, n)) : e.selectorCount = n := by
  fun_induction Expr.place? e generalizing n with
  | case1 =>
    cases h
    rfl
  | case2 _ target _ ih | case3 _ target _ ih =>
    obtain ⟨⟨root, k⟩, hplace, heq⟩ := Option.map_eq_some_iff.1 h
    cases heq
    exact congrArg (· + 1) (ih hplace)
  | case4 => cases h

namespace Phrase

/-- How many values the code of a phrase puts on the stack. -/
def gives : Phrase → Nat
  | expr _ | bound _ _ => 1
  | exprs es => es.length
  | entries es => es.length * 2
  | selectors e => e.selectorCount
  | condition e => e.isSome.toNat
  | stmt _ | optional _ | stmts _ | block _ => 0

/-- Whether the code of a phrase always leaves the block around it. -/
def leaves (kind : BodyKind) : Phrase → Bool
  | stmt s => s.leaves kind
  | stmts ss => Stmt.anyLeaves kind ss
  | block b => b.leaves kind
  | _ => false

/-- Whether a phrase consists of statements. -/
def isStatement : Phrase → Bool
  | stmt _ | optional _ | stmts _ | block _ => true
  | _ => false

end Phrase

/-! ### Variables -/

namespace Stage

open Code (Lifts lifts_nop lifts_instr lifts_op)

variable {x : SymbolId}

theorem lifts_load (pos : Pos) (sym : Symbol) (inLoop : Bool) (n : Nat) :
    (Code.load pos sym).Lifts inLoop ⟨n, 0⟩ ⟨n + 1, 0⟩ := by
  obtain ⟨name, storage, index, assigned⟩ := sym
  cases storage <;> exact lifts_op n rfl rfl

theorem lifts_store {isDefine : Bool} (h : σ.store pos isDefine k x = some (c, σ')) :
    c.Lifts inLoop ⟨n + 1 + k, 0⟩ ⟨n, 0⟩ := by
  rw [Nat.add_right_comm]
  rw [store] at h
  split at h
  · rw [storeIn] at h
    split at h <;> cases h
    case h_1 hzero | h_5 hzero =>
      cases eq_of_beq hzero
      exact lifts_op n rfl rfl
    case h_3 hzero =>
      cases eq_of_beq hzero
      split <;> exact lifts_op n rfl rfl
    all_goals exact lifts_op n rfl rfl
  · cases h

theorem lifts_bind (h : σ.bind pos x = some (c, σ')) : c.Lifts inLoop ⟨n + 1, 0⟩ ⟨n, 0⟩ := by
  simp only [bind] at h
  split at h
  · split at h <;> cases h <;> exact lifts_op n rfl rfl
  · cases h

theorem lifts_bindItem {op : Opcode} {i : Ident} (hop : op = .iterKey ∨ op = .iterValue)
    (h : σ.bindItem pos x op i = some (c, σ')) : c.Lifts inLoop ⟨n, 0⟩ ⟨n, 0⟩ := by
  obtain ⟨-, rfl, -⟩ | ⟨-, -, w, hbind, rfl⟩ := bindItem_cases h
  · exact lifts_nop ..
  · have hitem : (Code.instr pos op []).Lifts inLoop ⟨n + 1, 0⟩ ⟨n + 1, 0⟩ := by
      rcases hop with rfl | rfl <;> exact lifts_op n rfl rfl
    exact (lifts_load ..).seq (hitem.seq (lifts_bind hbind))

theorem lifts_bindItems {key : Ident} {value : Option Ident} (h : σ.bindItems pos x key value = some (c, σ')) :
    c.Lifts inLoop ⟨n, 0⟩ ⟨n, 0⟩ := by
  cases value with
  | none => exact lifts_bindItem (.inr rfl) h
  | some value =>
    obtain ⟨a, σ1, b, hkey, hvalue, rfl⟩ := bindItems_some h
    exact (lifts_bindItem (.inl rfl) hkey).seq (lifts_bindItem (.inr rfl) hvalue)

/-- A symbol stands for a variable that functions can capture. -/
def IsCapturable (σ : Stage) (x : SymbolId) : Prop :=
  x < σ.symbols.symbols.size ∧ ((σ.symbol x).storage = .slot ∨ (σ.symbol x).storage = .captured)

theorem IsCapturable.moves (h : σ.IsCapturable x) (hmoves : σ.Moves σ') : σ'.IsCapturable x := by
  refine ⟨Nat.lt_of_lt_of_le h.1 hmoves.later.symbols, ?_⟩
  rw [symbol, hmoves.later.symbol x h.1]
  exact h.2

theorem lifts_capture (hx : σ.IsCapturable x) (h : σ.capture pos x = some (c, σ')) :
    c.Lifts inLoop ⟨n, k⟩ ⟨n, k + 1⟩ := by
  have hcell : ∀ {op : Opcode} (i : Nat), op = .captureLocal ∨ op = .captureFree →
      (Code.instr pos op [i]).Lifts inLoop ⟨n, k⟩ ⟨n, k + 1⟩ := by
    rintro op i (rfl | rfl) <;> exact lifts_instr n k rfl rfl fun h => by cases h
  rw [capture] at h
  split at h
  · rw [captureIn] at h
    rcases hx.2 with hstorage | hstorage
    · rw [hstorage] at h
      dsimp only at h
      split at h <;> cases h
      · exact hcell _ (.inl rfl)
      · -- The variable is given a value first, which passes over the stack.
        have hpush : (Code.instr pos .pushUndefined []).Lifts inLoop ⟨n, k⟩ ⟨n + 1, k⟩ :=
          lifts_instr n k rfl rfl fun h => by cases h
        have hdefine : ∀ i, (Code.instr pos .defineLocal [i]).Lifts inLoop ⟨n + 1, k⟩ ⟨n, k⟩ := fun i =>
          lifts_instr n k rfl rfl fun h => by cases h
        exact hpush.seq ((hdefine _).seq (hcell _ (.inl rfl)))
    · rw [hstorage] at h
      cases h
      exact hcell _ (.inr rfl)
  · cases h

theorem lifts_captureAll (hσ : σ.Housed) (hxs : ∀ x ∈ xs, σ.IsCapturable x) (h : σ.captureAll pos xs = some (c, σ')) :
    c.Lifts inLoop ⟨n, k⟩ ⟨n, k + xs.length⟩ := by
  induction xs generalizing σ c k with
  | nil =>
    cases h
    exact lifts_nop ..
  | cons x xs ih =>
    obtain ⟨⟨a, σ1⟩, hfirst, h⟩ := Option.bind_eq_some_iff.1 h
    obtain ⟨⟨b, σ2⟩, hrest, h⟩ := Option.bind_eq_some_iff.1 h
    cases h
    have hlater : ∀ y ∈ xs, σ1.IsCapturable y := fun y hy =>
      (hxs y (List.mem_cons_of_mem _ hy)).moves ((renames_capture hfirst).moves hσ)
    have hb := ih (k := k + 1) (hσ.renames (renames_capture hfirst)) hlater hrest
    rw [Nat.add_assoc, Nat.add_comm 1] at hb
    exact (lifts_capture (hxs x (List.mem_cons_self ..)) hfirst).seq hb

/-- What the function of a scope captures can be captured. -/
theorem Housed.isCapturable (h : σ.Housed) {scope : ScopeId} : ∀ x ∈ σ.capturesOf scope, σ.IsCapturable x := by
  intro x hx
  have hcaptured := h.table.captures scope x (by simpa [capturesOf] using hx)
  exact ⟨hcaptured.known, hcaptured.storage⟩

theorem lifts_makeFunction (index : Nat) (hσ : σ.Housed) (hxs : ∀ x ∈ xs, σ.IsCapturable x)
    (h : σ.captureAll pos xs = some (c, σ')) : (c.makeFunction pos index xs.length).Lifts inLoop ⟨n, 0⟩ ⟨n + 1, 0⟩ := by
  rw [Code.makeFunction]
  split
  · exact lifts_op n rfl rfl
  · refine (lifts_captureAll hσ hxs h).seq ⟨⟨rfl, Nat.zero_le _, ?_, fun h => by cases h⟩, ?_⟩
    · exact Nat.le_of_eq (Nat.zero_add _).symm
    · simp [Height.after, Opcode.takes, Opcode.gives, Opcode.takesCells, Opcode.givesCells]

end Stage

/-! ### The main statements -/

theorem BinaryOp.lifts_instruction (h : op.instruction? = some (opcode, operands)) (pos : Pos) (inLoop : Bool)
    (n : Nat) : (Code.instr pos opcode operands).Lifts inLoop ⟨n + 2, 0⟩ ⟨n + 1, 0⟩ := by
  cases op <;> cases h <;> exact Code.lifts_op n rfl rfl

theorem BinaryOp.branch_ne (h : op.branch? = some branch) : branch ≠ .onFalsy := by
  cases op <;> cases h <;> decide

theorem UnaryOp.lifts_instruction {op : UnaryOp} (h : op.instruction? = some opcode) (pos : Pos) (inLoop : Bool)
    (n : Nat) : (Code.instr pos opcode []).Lifts inLoop ⟨n + 1, 0⟩ ⟨n + 1, 0⟩ := by
  cases op <;> cases h <;> exact Code.lifts_op n rfl rfl

theorem Expr.selectorCount_eq_zero (hselect : ∀ pos target key, e ≠ .select pos target key)
    (hindex : ∀ pos target key, e ≠ .index pos target key) : e.selectorCount = 0 := by
  cases e with
  | select pos target key => exact absurd rfl (hselect pos target key)
  | index pos target key => exact absurd rfl (hindex pos target key)
  | _ => rfl

open Code (Lifts lifts_nop lifts_op lifts_const) in
/-- The code of a phrase is balanced, and puts as many values on the stack as the phrase has. -/
theorem Lowers.balanced (h : Lowers o ctx φ σ c σ') (hσ : σ.Housed) (n : Nat) (hn : φ.isStatement = true → n = 0) :
    c.Lifts ctx.inLoop ⟨n, 0⟩ ⟨n + φ.gives, 0⟩ := by
  have hany : ∀ {m : Nat}, false = true → m = 0 := fun h => by cases h
  induction h generalizing n with
  | ident => exact Stage.lifts_load ..
  | literal | importNative | undefined | boundNone | ret => exact lifts_op n rfl rfl
  | bool => split <;> exact lifts_op n rfl rfl
  | exprsNil | entriesNil | exportMain | empty | optionalNone | conditionNone | stmtsNil | blockNil =>
    exact lifts_nop ..
  | plus _ ih | paren _ ih | boundSome _ ih => exact ih hσ n hany
  | incDec _ ih | blockStmt _ ih | optionalSome _ ih | stmtsLast _ _ ih => exact ih hσ n (fun _ => hn rfl)
  | conditionSome _ ih => exact ih hσ n hany
  | array _ _ ih | map _ _ ih | error _ ih | immutable _ ih =>
    exact (ih hσ n hany).seq (lifts_op n rfl rfl)
  | unary hop _ ih => exact (ih hσ n hany).seq (UnaryOp.lifts_instruction hop _ _ n)
  | binary hop hlhs _ iha ihb =>
    have hrhs := ihb (hlhs.housed hσ) (n + 1) hany
    exact (iha hσ n hany).seq (hrhs.seq (BinaryOp.lifts_instruction hop _ _ n))
  | logical hop hlhs _ iha ihb =>
    have hrhs := ihb (hlhs.housed hσ) n hany
    exact (iha hσ n hany).seq (Lifts.logical hrhs (BinaryOp.branch_ne hop))
  | call hcallee _ _ iha ihb =>
    have hargs := ihb (hcallee.housed hσ) (n + 1) hany
    refine (iha hσ n hany).seq (hargs.seq ?_)
    rw [Nat.add_right_comm]
    exact lifts_op n rfl rfl
  | index htarget _ iha ihb =>
    have hkey := ihb (htarget.housed hσ) (n + 1) hany
    exact (iha hσ n hany).seq (hkey.seq (lifts_op n rfl rfl))
  | select _ _ ih =>
    exact (ih hσ n hany).seq ((lifts_const _ _ _ (n + 1)).seq (lifts_op n rfl rfl))
  | slice htarget hlow _ iha ihb ihc =>
    have htarget := htarget.housed hσ
    have hb := ihb htarget (n + 1) hany
    have hc := ihc (hlow.housed htarget) (n + 2) hany
    exact (iha hσ n hany).seq (hb.seq (hc.seq (lifts_op n rfl rfl)))
  | cond hcond hyes _ iha ihb ihc =>
    have hcond := hcond.housed hσ
    have hb := ihb hcond n hany
    have hc := ihc (hyes.housed hcond) n hany
    exact (iha hσ n hany).seq (Lifts.choose hb hc)
  | func hbody _ hcaptures _ hcapture _ _ =>
    subst hcaptures
    have hfunction := ((Stage.renames_defineAll _ _).proceeds o).trans hbody.proceeds
    have hleft := hσ.proceeds hfunction.leave
    refine Stage.lifts_makeFunction _ ?_ ?_ hcapture
    · exact ⟨hleft.table, hleft.hosts⟩
    · exact hleft.isCapturable
  | importKnown | importNew =>
    exact (lifts_const _ _ _ n).seq (lifts_op n rfl rfl)
  | exprsCons hhead _ iha ihb | selectorsIndex hhead _ iha ihb =>
    have htail := ihb (hhead.housed hσ) (n + 1) hany
    rw [Nat.add_assoc, Nat.add_comm 1] at htail
    exact (iha hσ n hany).seq htail
  | entriesCons _ hhead _ iha ihb =>
    have htail := ihb (hhead.housed (hσ.addConstant _)) (n + 2) hany
    rw [Nat.add_assoc, Nat.add_comm 2] at htail
    rw [Phrase.gives, List.length_cons, Nat.succ_mul]
    exact (lifts_const _ _ _ n).seq ((iha (hσ.addConstant _) (n + 1) hany).seq htail)
  | selectorsSelect _ _ ih =>
    have hrest := ih (hσ.addConstant _) (n + 1) hany
    rw [Nat.add_assoc, Nat.add_comm 1] at hrest
    exact (lifts_const _ _ _ n).seq hrest
  | selectorsEnd hselect hindex =>
    rw [Phrase.gives, Expr.selectorCount_eq_zero hselect hindex]
    exact lifts_nop ..
  | exprStmt _ ih | retValue _ _ ih =>
    cases hn rfl
    exact (ih hσ 0 hany).seq (lifts_op 0 rfl rfl)
  | exportModule _ _ ih =>
    cases hn rfl
    exact (ih hσ 0 hany).seq (.seq (lifts_op 0 rfl rfl) (lifts_op 0 rfl rfl))
  | define _ _ hvalue _ hstore ih =>
    cases hn rfl
    exact (ih (hσ.renames (Stage.renames_lookedUp _ _)) 0 hany).seq (Stage.lifts_store hstore)
  | defineFunction _ _ hvalue _ hstore ih =>
    cases hn rfl
    exact (ih (hσ.renames (Stage.renames_defineNew _ _)) 0 hany).seq (Stage.lifts_store hstore)
  | assign hplace hresolve hvalue _ hstore iha ihb =>
    cases hn rfl
    have hfound := hσ.renames (Stage.renames_resolve hresolve)
    have hselectors := ihb (hvalue.housed hfound) (0 + 1) hany
    rw [Phrase.gives, Expr.selectorCount_of_place hplace] at hselectors
    exact (iha hfound 0 hany).seq (hselectors.seq (Stage.lifts_store hstore))
  | combine hplace hresolve hread hvalue _ hstore iha ihb ihc =>
    cases hn rfl
    have hfound := hσ.renames (Stage.renames_resolve hresolve)
    have hfirst := hread.housed hfound
    have hselectors := ihc (hvalue.housed hfirst) (0 + 1) hany
    rw [Phrase.gives, Expr.selectorCount_of_place hplace] at hselectors
    have hstored := hselectors.seq (Stage.lifts_store hstore)
    exact (iha hfound 0 hany).seq ((ihb hfirst 1 hany).seq (.seq (lifts_op 0 rfl rfl) hstored))
  | ifThen hinit hcond _ iha ihb ihc =>
    cases hn rfl
    have hinner := hσ.enter true
    have hfirst := hinit.housed hinner
    have hbody := ihc (hcond.housed hfirst) 0 fun _ => rfl
    exact (iha hinner 0 fun _ => rfl).seq ((ihb hfirst 0 hany).seq hbody.skip)
  | ifElse hinit hcond hbody _ iha ihb ihc ihd =>
    cases hn rfl
    have hinner := hσ.enter true
    have hfirst := hinit.housed hinner
    have hsecond := hcond.housed hfirst
    have hyes := ihc hsecond 0 fun _ => rfl
    have hno := ihd (hbody.housed hsecond) 0 fun _ => rfl
    exact (iha hinner 0 fun _ => rfl).seq ((ihb hfirst 0 hany).seq (hyes.choose hno))
  | loop hinit hcond hbody _ iha ihb ihc ihd =>
    cases hn rfl
    have hinner := hσ.enter true
    have hfirst := hinit.housed hinner
    have hsecond := hcond.housed hfirst
    have hhead := ihb hfirst 0 hany
    rw [Nat.zero_add] at hhead
    have hround := ihc hsecond 0 fun _ => rfl
    have hpost := ihd (hbody.housed hsecond) 0 fun _ => rfl
    exact (iha hinner 0 fun _ => rfl).seq (hhead.loop hround hpost)
  | forIn hdefine hiterable hbind _ hitems _ iha ihb =>
    cases hn rfl
    cases hdefine
    have hinner := (hσ.enter true).renames (Stage.renames_define _ ":it")
    have hbound := (Stage.renames_bind hbind).trans (Stage.renames_bindItems hitems)
    have hbody := ihb ((hiterable.housed hinner).renames hbound) 0 fun _ => rfl
    have hround := (Stage.lifts_bindItems hitems).seq hbody
    refine (iha hinner 0 hany).seq (.seq (lifts_op 0 rfl rfl) ((Stage.lifts_bind hbind).seq ?_))
    exact .loop ((Stage.lifts_load ..).seq (lifts_op 0 rfl rfl)) hround (lifts_nop _ _)
  | breakLoop hloop | continueLoop hloop =>
    cases hn rfl
    exact ⟨⟨hloop, rfl⟩, rfl⟩
  | stmtsCons _ hstmt _ iha ihb =>
    cases hn rfl
    exact (iha hσ 0 fun _ => rfl).seq (ihb (hstmt.housed hσ) 0 fun _ => rfl)
  | block _ _ ih =>
    cases hn rfl
    exact ih (hσ.enter true) 0 fun _ => rfl

/-- Control does not get to the end of statements that leave the block around them. -/
theorem Lowers.falls (h : Lowers o ctx φ σ c σ') (hleaves : φ.leaves ctx.kind = true) : c.falls = false := by
  induction h with
  | breakLoop | continueLoop | ret | retValue | exportModule => rfl
  | exportMain hkind =>
    rw [hkind] at hleaves
    cases hleaves
  | blockStmt _ ih | block _ _ ih => exact ih hleaves
  | stmtsLast hleft _ ih => exact ih hleft
  | stmtsCons hstays _ _ _ ih =>
    refine ih ?_
    simpa [Phrase.leaves, Stmt.anyLeaves, hstays] using hleaves
  | _ => cases hleaves

end ScriptEngine
