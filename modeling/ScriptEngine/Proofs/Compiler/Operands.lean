import ScriptEngine.Proofs.Code.Renumber
import ScriptEngine.Proofs.Compiler.Balance
/-!
# Operands that make sense

An instruction of a compiled function names variables that the function has and constants that are
there before the function itself. A constant that needs captured variables is only made into a function
together with as many cells as it uses. `Opcode.Sound` asks this of an instruction, `Code.Sound` of code
and `Function.Sound` of a function. Main statements: operands that make sense are read back as they were
written (`Opcode.Sound.cut`), and what reads, sets and captures variables has such operands.
-/

namespace ScriptEngine

open CompileM (maxWide maxNarrow)
open SymbolTable (root)

variable {cs cs' : Array Value} {c : Code} {o : CompileOptions} {e e' : Extent} {i m n n' : Nat} {op : Opcode}
  {k : Screen}

/-! ### What is asked -/

/-- Whether an instruction uses a local variable. -/
def Opcode.isLocal : Opcode → Bool
  | .getLocal | .setLocal | .defineLocal | .captureLocal | .setSelLocal => true
  | _ => false

/-- Whether an instruction uses a global variable. -/
def Opcode.isGlobal : Opcode → Bool
  | .getGlobal | .setGlobal | .setSelGlobal => true
  | _ => false

/-- Whether an instruction uses a captured variable. -/
def Opcode.isFree : Opcode → Bool
  | .getFree | .setFree | .captureFree | .setSelFree => true
  | _ => false

/-- The captured variables that a function uses are among the first `n`. -/
def Function.CapturesBelow (f : Function) (n : Nat) : Prop :=
  ∀ i ∈ (walk f.code).instructions, i.op.isFree = true → i.first < n

/-- A constant that can be used as it is: no function that needs captured variables. -/
def Value.IsClosed (v : Value) : Prop := ∀ f, v = .function f → f.CapturesBelow 0

/-- The operands that instructions may have in code with the variables of an extent and the first `n` of
some constants. -/
def Opcode.Sound (k : Screen) (e : Extent) (cs : Array Value) (n : Nat) : Opcode → List Nat → Prop
  | .const, [i] => (i < n ∧ i ≤ maxWide) ∧ ∃ v, cs[i]? = some v ∧ v.IsClosed
  | .closure, [i, m] =>
    (i < n ∧ i ≤ maxWide) ∧ m ≤ maxNarrow ∧ ∃ f, cs[i]? = some (.function f) ∧ f.CapturesBelow m
  | .getGlobal, [i] | .setGlobal, [i] => i < e.globals ∧ i ≤ maxWide
  | .setSelGlobal, [i, m] => (i < e.globals ∧ i ≤ maxWide) ∧ k.target m = true
  | .getLocal, [i] | .setLocal, [i] | .defineLocal, [i] | .captureLocal, [i] => i < e.locals ∧ i ≤ maxNarrow
  | .setSelLocal, [i, m] => (i < e.locals ∧ i ≤ maxNarrow) ∧ k.target m = true
  | .getFree, [i] | .setFree, [i] | .captureFree, [i] => i < e.captures ∧ i ≤ maxNarrow
  | .setSelFree, [i, m] => (i < e.captures ∧ i ≤ maxNarrow) ∧ k.target m = true
  | .getBuiltin, [i] => i < Builtin.all.size
  | .array, [m] | .map, [m] => m ≤ maxWide
  | .call, [m, s] => m ≤ maxNarrow ∧ ∃ spread : Bool, s = spread.toNat ∧ k.call m spread = true
  | .binary, [code] => ∃ op : Operator, code = op.code
  | .ret, [m] => m ≤ 1
  | .jump, [_] | .jumpFalsy, [_] | .andJump, [_] | .orJump, [_] => True
  | .pop, [] | .pushTrue, [] | .pushFalse, [] | .pushUndefined, [] | .equal, [] | .notEqual, [] | .negate, []
  | .logicalNot, [] | .complement, [] | .error, [] | .freeze, [] | .index, [] | .slice, [] | .iterInit, []
  | .iterNext, [] | .iterKey, [] | .iterValue, [] => True
  | _, _ => False

section Sound

variable {operands : List Nat}

theorem Opcode.Sound.mono (h : op.Sound k e cs n operands) (he : e ≤ e') (hcs : KeptIn cs cs') (hn : n ≤ n') :
    op.Sound k e' cs' n' operands := by
  obtain ⟨hglobals, hlocals, hcaptures⟩ := he
  unfold Opcode.Sound at h ⊢
  split at h
  · obtain ⟨⟨hi, hwide⟩, v, hv, hclosed⟩ := h
    exact ⟨⟨Nat.lt_of_lt_of_le hi hn, hwide⟩, v, hcs _ _ hv, hclosed⟩
  · obtain ⟨⟨hi, hwide⟩, hm, f, hf, hbelow⟩ := h
    exact ⟨⟨Nat.lt_of_lt_of_le hi hn, hwide⟩, hm, f, hcs _ _ hf, hbelow⟩
  all_goals first | exact h | grind

theorem Opcode.sound_jump (hop : op.isJump = true) (target : Nat) : op.Sound k e cs n [target] := by
  cases op <;> trivial

/-- Whether an instruction assigns to a part of a value. -/
def Opcode.isPart : Opcode → Bool
  | .setSelGlobal | .setSelLocal | .setSelFree => true
  | _ => false

theorem lt_capacity_one (h : i ≤ maxNarrow) : i < capacity 1 := Nat.lt_succ_of_le h

theorem lt_capacity_two (h : i ≤ maxWide) : i < capacity 2 := Nat.lt_succ_of_le h

theorem Operator.code_le (op : Operator) : op.code ≤ maxNarrow := by
  cases op <;> decide

/-- Operands are read back as they were written, apart from a number of selectors that does not fit. -/
theorem Opcode.Sound.cut (h : op.Sound k e cs n operands) (hjump : op.isJump = false) :
    OperandsFit op.widths operands ∨ (op.isPart = true ∧ ∃ i m, operands = [i, m] ∧ k.target m = true ∧
      cutOperands op.widths operands = [i, m % capacity 1]) := by
  unfold Opcode.Sound at h
  split at h
  case h_1 => exact .inl ⟨lt_capacity_two h.1.2, trivial⟩
  case h_2 => exact .inl ⟨lt_capacity_two h.1.2, lt_capacity_one h.2.1, trivial⟩
  case h_3 | h_4 => exact .inl ⟨lt_capacity_two h.2, trivial⟩
  case h_5 i m =>
    refine .inr ⟨rfl, i, m, rfl, h.2, ?_⟩
    simp [Opcode.widths, cutOperands, Nat.mod_eq_of_lt (lt_capacity_two h.1.2)]
  case h_10 i m | h_14 i m =>
    refine .inr ⟨rfl, i, m, rfl, h.2, ?_⟩
    simp [Opcode.widths, cutOperands, Nat.mod_eq_of_lt (lt_capacity_one h.1.2)]
  case h_15 => exact .inl ⟨Nat.lt_of_lt_of_le h (by decide), trivial⟩
  case h_16 | h_17 => exact .inl ⟨lt_capacity_two h, trivial⟩
  case h_18 =>
    obtain ⟨hm, spread, rfl, -⟩ := h
    exact .inl ⟨lt_capacity_one hm, lt_capacity_one (by cases spread <;> decide), trivial⟩
  case h_19 =>
    obtain ⟨op, rfl⟩ := h
    exact .inl ⟨lt_capacity_one op.code_le, trivial⟩
  case h_20 => exact .inl ⟨lt_capacity_one (Nat.le_trans h (by decide)), trivial⟩
  all_goals first | exact .inl ⟨lt_capacity_one h.2, trivial⟩ | exact .inl trivial | exact h.elim | cases hjump

/-- An operand that names a variable or a constant is read back as it was written. -/
theorem Opcode.Sound.first (h : op.Sound k e cs n operands) (hjump : op.isJump = false) :
    (cutOperands op.widths operands).headD 0 = operands.headD 0 := by
  rcases h.cut hjump with hfits | ⟨-, i, m, rfl, -, hcut⟩
  · rw [cutOperands_of_fit hfits]
  · rw [hcut]
    rfl

theorem Opcode.isJump_of_isFree (h : op.isFree = true) : op.isJump = false := by
  cases op <;> first | rfl | cases h

section

variable (h : op.Sound k e cs n operands)
include h

theorem Opcode.Sound.free (hfree : op.isFree = true) : operands.headD 0 < e.captures := by
  unfold Opcode.Sound at h
  split at h <;> first | exact h.1.1 | exact h.1 | exact h.elim | cases hfree

theorem Opcode.Sound.ne_suspend : op ≠ .suspend := by
  unfold Opcode.Sound at h
  split at h <;> first | exact h.elim | exact fun hop => by cases hop

theorem Opcode.Sound.local (hlocal : op.isLocal = true) : operands.headD 0 < e.locals := by
  unfold Opcode.Sound at h
  split at h <;> first | exact h.1.1 | exact h.1 | exact h.elim | cases hlocal

theorem Opcode.Sound.global (hglobal : op.isGlobal = true) : operands.headD 0 < e.globals := by
  unfold Opcode.Sound at h
  split at h <;> first | exact h.1.1 | exact h.1 | exact h.elim | cases hglobal

end

theorem Opcode.Sound.builtin (h : Opcode.getBuiltin.Sound k e cs n operands) :
    operands.headD 0 < Builtin.all.size := by
  unfold Opcode.Sound at h
  split at h <;> first | exact h | exact h.elim | contradiction

theorem Opcode.Sound.const (h : Opcode.const.Sound k e cs n operands) :
    ∃ i v, operands = [i] ∧ i < n ∧ cs[i]? = some v ∧ v.IsClosed := by
  unfold Opcode.Sound at h
  split at h <;> first | exact ⟨_, _, rfl, h.1.1, h.2.choose_spec⟩ | exact h.elim | contradiction

theorem Opcode.Sound.closure (h : Opcode.closure.Sound k e cs n operands) :
    ∃ i m f, operands = [i, m] ∧ i < n ∧ cs[i]? = some (.function f) ∧ f.CapturesBelow m := by
  unfold Opcode.Sound at h
  split at h <;> first | exact ⟨_, _, _, rfl, h.1.1, h.2.2.choose_spec⟩ | exact h.elim | contradiction

end Sound

/-! ### Functions -/

/-- The code as it is asked for, balanced and with an end that control does not run over. -/
structure Code.Sound (c : Code) (k : Screen) (e : Extent) (cs : Array Value) (n : Nat) : Prop where
  operands : c.All (Opcode.Sound k e cs n)
  balanced : c.Balanced false .ground
  ends : c.falls = false

/-- A function has the code, with a position for every instruction, and nothing is captured yet. -/
structure Code.Writes (c : Code) (f : Function) : Prop where
  code : f.code = (bytesOf (c.lines 0 0 0)).toArray
  positions : f.positions = ({} : PositionTable).mark (c.lines 0 0 0)
  captured : f.captured = #[]

/-- The code of some statements outside all loops, up to the numbers of constants. -/
def Code.Comes (o : CompileOptions) (c : Code) (ss : List Stmt) : Prop :=
  ∃ ctx σ a σ' ρ, Lowers o ctx (.stmts ss) σ a σ' ∧ σ.Housed ∧ ctx.inLoop = false ∧ c = a.renumber ρ

/-- The code of a whole body, which returns at its end. -/
def Code.IsBody (o : CompileOptions) (c : Code) : Prop :=
  ∃ (a : Code) (ss : List Stmt) (pos : Pos) (leaves : Bool), a.Comes o ss ∧ c = a.closing pos leaves

theorem Code.Comes.renumber {ss : List Stmt} (h : c.Comes o ss) (ρ : Nat → Nat) : (c.renumber ρ).Comes o ss := by
  obtain ⟨ctx, σ, a, σ', ρ', hlowers, hσ, hloop, rfl⟩ := h
  exact ⟨ctx, σ, a, σ', ρ ∘ ρ', hlowers, hσ, hloop, renumber_renumber ρ a⟩

theorem Code.IsBody.renumber (h : c.IsBody o) (ρ : Nat → Nat) : (c.renumber ρ).IsBody o := by
  obtain ⟨a, ss, pos, leaves, ha, rfl⟩ := h
  refine ⟨a.renumber ρ, ss, pos, leaves, ha.renumber ρ, ?_⟩
  cases leaves <;> rfl

/-- A function whose code uses the first `n` constants and `m` captured variables. -/
def Function.Sound (o : CompileOptions) (k : Screen) (globals : Nat) (cs : Array Value) (n m : Nat)
    (f : Function) : Prop :=
  ∃ c : Code, c.Writes f ∧ c.Sound k ⟨globals, f.locals, m⟩ cs n ∧ c.IsBody o

section Functions

variable {g g' : Nat} {f : Function}

theorem Code.All.sound (h : c.All (Opcode.Sound k e cs n)) (he : e ≤ e') (hcs : KeptIn cs cs') (hn : n ≤ n') :
    c.All (Opcode.Sound k e' cs' n') := h.imp fun _ _ hop => hop.mono he hcs hn

theorem Function.Sound.mono (h : f.Sound o k g cs n m) (hg : g ≤ g') (hcs : KeptIn cs cs') (hn : n ≤ n') :
    f.Sound o k g' cs' n' m := by
  obtain ⟨c, hwrites, hsound, hbody⟩ := h
  exact ⟨c, hwrites, ⟨hsound.operands.sound ⟨hg, Nat.le_refl _, Nat.le_refl _⟩ hcs hn, hsound.balanced, hsound.ends⟩,
    hbody⟩

/-- The instructions of a function are the lines of its code. -/
theorem Code.Writes.walk_eq (h : c.Writes f) :
    walk f.code = { instructions := ((c.lines 0 0 0).map Line.instruction).toArray } := by
  rw [h.code, walk_bytesOf (c.consecutive_lines 0 0 0)]

theorem Code.Writes.exists_line (h : c.Writes f) {i : Instruction} (hi : i ∈ (walk f.code).instructions) :
    ∃ l ∈ c.lines 0 0 0, i = l.instruction := by
  rw [h.walk_eq] at hi
  obtain ⟨l, hl, rfl⟩ := List.mem_map.1 (List.mem_toArray.1 hi)
  exact ⟨l, hl, rfl⟩

/-- Every line has operands that make sense. -/
theorem Code.Sound.line (h : c.Sound k e cs n) {l : Line} {start stop next : Nat}
    (hl : l ∈ c.lines start stop next) : l.op.Sound k e cs n l.operands :=
  h.operands.lines (fun _ target hop => Opcode.sound_jump hop target) start stop next l hl

theorem Function.Sound.capturesBelow (h : f.Sound o k g cs n m) : f.CapturesBelow m := by
  obtain ⟨c, hwrites, hsound, -⟩ := h
  intro i hi hfree
  obtain ⟨l, hl, rfl⟩ := hwrites.exists_line hi
  have hline := hsound.line hl
  rw [Instruction.first, Line.instruction, hline.first (Opcode.isJump_of_isFree hfree)]
  exact hline.free hfree

end Functions

/-! ### Variables -/

namespace Stage

variable {σ σ' : Stage} {pos : Pos} {x : SymbolId}

/-- A symbol stands for a variable that code in the scope at hand can use. -/
def Has (σ : Stage) (x : SymbolId) : Prop := x < σ.symbols.symbols.size ∧ (σ.symbol x).Within σ.extent

theorem Has.moves (h : σ.Has x) (hσ : σ.Housed) (hmoves : σ.Moves σ') : σ'.Has x := by
  refine ⟨Nat.lt_of_lt_of_le h.1 hmoves.later.symbols, ?_⟩
  rw [extent, hmoves.scope]
  exact hmoves.later.within hσ.hosts.known h.1 h.2

/-- A symbol stands for a variable that was defined in the code at hand. -/
def Owns (σ : Stage) (x : SymbolId) : Prop :=
  σ.Has x ∧ ((σ.symbol x).storage = .global ∨ (σ.symbol x).storage = .slot)

theorem Owns.moves (h : σ.Owns x) (hσ : σ.Housed) (hmoves : σ.Moves σ') : σ'.Owns x := by
  refine ⟨h.1.moves hσ hmoves, ?_⟩
  rw [symbol, hmoves.later.symbol x h.1.1]
  exact h.2

/-- A variable that was just defined can be used. -/
theorem Housed.owns_define (h : σ.Housed) (name : String) : (σ.define name).2.Owns (σ.define name).1 := by
  have hfind : ((σ.define name).2.symbols.scope σ.scope).names.find? name = some (σ.define name).1 := by
    show ((σ.symbols.define σ.scope name).2.scope σ.scope).names.find? name = _
    rw [SymbolTable.names_define, if_pos ⟨rfl, h.hosts.known⟩, Dict.find?_insert, if_pos rfl]
    rfl
  have htable := (h.renames (renames_define σ name)).table
  refine ⟨⟨(htable.closed _ _ _ hfind).1, htable.names _ _ _ hfind⟩, ?_⟩
  have hsymbol : (σ.define name).2.symbol (σ.define name).1 =
      ⟨name, (σ.symbols.owner σ.scope).1, σ.symbols.nextIndex σ.scope, false⟩ := by
    show (σ.symbols.define σ.scope name).2.symbol σ.symbols.symbols.size = _
    rw [SymbolTable.symbol_define, if_pos rfl]
  rw [hsymbol, SymbolTable.owner]
  split
  · exact .inl rfl
  · exact .inr rfl

theorem sound_load {sym : Symbol} (hwithin : sym.Within e) (hfits : sym.Fits) :
    (Code.load pos sym).All (Opcode.Sound k e cs n) := by
  obtain ⟨name, storage, index, assigned⟩ := sym
  cases storage with
  | global | slot | captured => exact ⟨hwithin, hfits⟩
  | builtin => exact hwithin

theorem sound_store {isDefine : Bool} (hx : (σ.symbol x).Within e) (hm : k.target m = true)
    (h : σ.store pos isDefine m x = some (c, σ')) : c.All (Opcode.Sound k e cs n) := by
  rw [store] at h
  split at h
  · next hfits =>
    rw [storeIn] at h
    generalize σ.symbol x = sym at hx hfits h
    obtain ⟨name, storage, index, assigned⟩ := sym
    cases storage with
    | global | captured =>
      cases hzero : m == 0 <;> rw [hzero] at h <;> cases h
      · exact ⟨⟨hx, hfits⟩, hm⟩
      · exact ⟨hx, hfits⟩
    | slot =>
      cases hzero : m == 0 <;> rw [hzero] at h <;> cases h
      · exact ⟨⟨hx, hfits⟩, hm⟩
      · split <;> exact ⟨hx, hfits⟩
    | builtin => cases h
  · cases h

theorem sound_bind (hx : σ.Owns x) (h : σ.bind pos x = some (c, σ')) : c.All (Opcode.Sound k σ.extent cs n) := by
  obtain ⟨⟨-, hwithin⟩, hstorage⟩ := hx
  simp only [bind] at h
  split at h
  · next hfits =>
    generalize σ.symbol x = sym at hwithin hstorage hfits h
    obtain ⟨name, storage, index, assigned⟩ := sym
    rcases hstorage with rfl | rfl <;> cases h <;> exact ⟨hwithin, hfits⟩
  · cases h

theorem sound_bindItem {i : Ident} (hσ : σ.Housed) (hx : σ.Has x) (hop : op = .iterKey ∨ op = .iterValue)
    (h : σ.bindItem pos x op i = some (c, σ')) : c.All (Opcode.Sound k σ'.extent cs n) := by
  obtain ⟨-, rfl, -⟩ | ⟨-, hfits, w, hbind, rfl⟩ := bindItem_cases h
  · trivial
  · have hdefined := renames_define σ i.name
    have hσ1 := hσ.renames hdefined
    have hle := ((renames_bind hbind).moves hσ1).extent_le hσ1
    refine ⟨(sound_load (hx.moves hσ (hdefined.moves hσ)).2 hfits).sound hle (.refl _) (Nat.le_refl _), ?_,
      (sound_bind (hσ.owns_define i.name) hbind).sound hle (.refl _) (Nat.le_refl _)⟩
    rcases hop with rfl | rfl <;> trivial

theorem sound_bindItems {key : Ident} {value : Option Ident} (hσ : σ.Housed) (hx : σ.Has x)
    (h : σ.bindItems pos x key value = some (c, σ')) : c.All (Opcode.Sound k σ'.extent cs n) := by
  cases value with
  | none => exact sound_bindItem hσ hx (.inr rfl) h
  | some value =>
    obtain ⟨a, σ1, b, hkey, hvalue, rfl⟩ := bindItems_some h
    have hmoves := (renames_bindItem hkey).moves hσ
    have hσ1 := hσ.moves hmoves
    have hle := ((renames_bindItem hvalue).moves hσ1).extent_le hσ1
    exact ⟨(sound_bindItem hσ hx (.inl rfl) hkey).sound hle (.refl _) (Nat.le_refl _),
      sound_bindItem hσ1 (hx.moves hσ hmoves) (.inr rfl) hvalue⟩

theorem sound_capture (hx : (σ.symbol x).Within e) (h : σ.capture pos x = some (c, σ')) :
    c.All (Opcode.Sound k e cs n) := by
  rw [capture] at h
  split at h
  · next hfits =>
    generalize σ.symbol x = sym at hx hfits h
    obtain ⟨name, storage, index, assigned⟩ := sym
    cases storage with
    | slot =>
      cases assigned <;> cases h
      · exact ⟨trivial, ⟨hx, hfits⟩, hx, hfits⟩
      · exact ⟨hx, hfits⟩
    | captured =>
      cases h
      exact ⟨hx, hfits⟩
    | global | builtin =>
      cases h
      trivial
  · cases h

theorem sound_captureAll {xs : List SymbolId} (hσ : σ.Housed) (hxs : ∀ x ∈ xs, σ.Has x)
    (h : σ.captureAll pos xs = some (c, σ')) : c.All (Opcode.Sound k σ'.extent cs n) := by
  induction xs generalizing σ c with
  | nil =>
    cases h
    trivial
  | cons x xs ih =>
    obtain ⟨⟨a, σ1⟩, hfirst, h⟩ := Option.bind_eq_some_iff.1 h
    obtain ⟨⟨b, σ2⟩, hrest, h⟩ := Option.bind_eq_some_iff.1 h
    cases h
    have hmoves := (renames_capture hfirst).moves hσ
    have hle := (hmoves.trans ((renames_captureAll hrest).moves (hσ.moves hmoves))).extent_le hσ
    have hlater : ∀ y ∈ xs, σ1.Has y := fun y hy => (hxs y (List.mem_cons_of_mem _ hy)).moves hσ hmoves
    exact ⟨(sound_capture (hxs x (List.mem_cons_self ..)).2 hfirst).sound hle (.refl _) (Nat.le_refl _),
      ih (hσ.moves hmoves) hlater hrest⟩

end Stage

end ScriptEngine
