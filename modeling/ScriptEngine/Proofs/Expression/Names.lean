import ScriptEngine.Proofs.Expression.Cells
import ScriptEngine.Proofs.Expression.Correct
import ScriptEngine.Proofs.Lookup
/-!
# What names mean in a call

A name means the variable of the symbol that it is found to stand for. While an expression is
compiled its names are looked up one after the other, and each of them may capture a variable. What
was found for a name is found again at the end of the expression, so that the names can be read off
the last stage (`Stage.loads_look`).
-/

namespace ScriptEngine

open Exec

variable {f : Frame} {outer : List Frame} {m : Machine} {full : Prop} {s : Setting} {sym : Symbol}

/-! ### Variables -/

/-- The value of the variable that a symbol stands for in a call. -/
def Machine.variable (m : Machine) (f : Frame) (sym : Symbol) (h : Heap) : Except Fault Value :=
  match sym.storage with
  | .global =>
    match m.globals[sym.index]? with
    | some v => .ok v
    | none => .error (.globalOutOfRange sym.index)
  | .slot => .ok (m.valueAt h (f.base + sym.index))
  | .builtin =>
    match Builtin.all[sym.index]? with
    | some b => .ok (.native (.builtin b))
    | none => .error (.invalidInstruction Opcode.getBuiltin.byte)
  | .captured =>
    match f.func.captured[sym.index]? with
    | some cell => .ok (h.cell cell)
    | none => .error (.custom s!"free variable {sym.index} out of range")

section Load

variable {h : Heap} {vs : List Value} {fuel : Nat} {pos : Pos}

theorem valueAt_working {place : Nat} (hplace : place < m.stack.size) :
    (m.working h vs).valueAt h place = m.valueAt h place := by
  rw [Machine.valueAt, Machine.valueAt]
  show (match (m.cells[place]?).join with | some cell => h.cell cell | none => _) = _
  cases (m.cells[place]?).join with
  | some cell => rfl
  | none => simp [Machine.working, Array.getElem?_append_left hplace]

/-- The code of a symbol yields the value of its variable. -/
theorem yields_load (hframes : m.frames = f :: outer)
    (hlocal : sym.storage = .slot → f.base + sym.index < m.stack.size)
    (hroom : HasRoom s full m (vs.length + 1)) :
    Yields full m (fun v => (Exit.next, v :: vs)) ((Code.load pos sym).exec s fuel (m.working h vs))
      (HeapM.read (m.variable f sym) h) := by
  have hframes' : (m.working h vs).frames = f :: outer := hframes
  refine Conforms.instr ?_
  simp only [HeapM.read, Machine.variable]
  cases hstorage : sym.storage with
  | global =>
    have hglobals : (m.working h vs).globals[sym.index]? = m.globals[sym.index]? := rfl
    cases hv : m.globals[sym.index]? with
    | some v =>
      have hget : getGlobal sym.index (m.working h vs) = .ok v (m.working h vs) := by
        simp only [getGlobal, hglobals, hv]
      exact Conforms.silently hget (Yields.pushed hroom v)
    | none =>
      have hget : getGlobal sym.index (m.working h vs) =
          .error (.failure { cause := .globalOutOfRange sym.index }) (m.working h vs) := by
        simp only [getGlobal, hglobals, hv]
      exact Yields.failed (bind_error hget)
  | slot =>
    have hplace := hlocal hstorage
    have hsize : f.base + sym.index < (m.working h vs).stack.size := by
      rw [Yields.size_working]
      exact Nat.lt_add_right _ hplace
    have hget := getLocal_eq hframes' hsize
    rw [show (m.working h vs).heap = h from rfl, valueAt_working hplace] at hget
    exact Conforms.silently hget (Yields.pushed hroom _)
  | builtin =>
    cases hb : Builtin.all[sym.index]? with
    | some b =>
      have hplain : plain s ⟨0, .getBuiltin, [sym.index]⟩ =
          (do push s (.native (.builtin b)); return Flow.goOn) := by
        simp only [plain, execute, Instruction.first, List.headD_cons, hb]
      simp only [Storage.loadOp]
      rw [hplain]
      exact Yields.pushed hroom _
    | none =>
      have hplain : plain s ⟨0, .getBuiltin, [sym.index]⟩ =
          (do fault (.invalidInstruction Opcode.getBuiltin.byte); return Flow.goOn) := by
        simp only [plain, execute, Instruction.first, List.headD_cons, hb]
      simp only [Storage.loadOp]
      rw [hplain]
      exact Yields.failed rfl
  | captured =>
    cases hcell : f.func.captured[sym.index]? with
    | some cell => exact Conforms.silently (captured_eq hframes' hcell) (Conforms.silently rfl (Yields.pushed hroom _))
    | none => exact Yields.failed (bind_error (captured_error hframes' hcell))

end Load

/-! ### Names -/

namespace Stage

/-- The symbol that a name stands for. -/
def seen (σ : Stage) (name : String) : Option Symbol := (σ.resolve name).map fun r => r.2.2.symbol r.1

variable {σ σ' : Stage} {name : String} {id : SymbolId}

theorem resolve_eq_some {depth : Nat} (h : σ.resolve name = some (id, depth, σ')) :
    σ.symbols.resolveFrom σ.scope name false = some (id, depth, σ'.symbols) ∧ σ'.scope = σ.scope := by
  obtain ⟨⟨id', depth', symbols⟩, hfound, heq⟩ := Option.map_eq_some_iff.1 h
  cases heq
  exact ⟨hfound, rfl⟩

theorem seen_of_finds (h : σ.symbols.Finds σ.scope name false id) : σ.seen name = some (σ.symbol id) := by
  obtain ⟨depth, h⟩ := h
  rw [seen, resolve, SymbolTable.resolve, h]
  rfl

/-- What a name stands for is not changed by looking names up. -/
structure Knows (σ : Stage) (name : String) (id : SymbolId) (sym : Symbol) : Prop where
  closed : σ.symbols.Closed
  known : id < σ.symbols.symbols.size
  symbol : σ.symbol id = sym
  finds : σ.symbols.Finds σ.scope name false id

theorem Knows.later (h : σ.Knows name id sym) (hlater : σ.Later σ') : σ'.Knows name id sym := by
  induction hlater with
  | refl => exact h
  | addConstant _ _ ih => exact ⟨ih.closed, ih.known, ih.symbol, ih.finds⟩
  | @resolve σ1 σ2 other x depth _ hresolve ih =>
    obtain ⟨hfound, hscope⟩ := resolve_eq_some hresolve
    have hlooked := SymbolTable.resolveFrom_spec ih.closed hfound
    refine ⟨hlooked.closed, Nat.lt_of_lt_of_le ih.known hlooked.grows.size, ?_, ?_⟩
    · exact (hlooked.grows.symbol id ih.known).trans ih.symbol
    · rw [hscope]
      by_cases hother : other = name
      · -- The name was found already, so that nothing is captured now.
        subst hother
        obtain ⟨depth', hfinds⟩ := ih.finds
        obtain ⟨rfl, -⟩ := Prod.mk.inj (Option.some.inj (hfinds.symm.trans hfound))
        exact hlooked.again
      · exact ih.finds.keep ih.closed hlooked.grows (hlooked.others name (Ne.symm hother))

theorem closed_later (h : σ.symbols.Closed) (hlater : σ.Later σ') : σ'.symbols.Closed := by
  induction hlater with
  | refl => exact h
  | addConstant _ _ ih => exact ih
  | resolve _ hresolve ih => exact (SymbolTable.resolveFrom_spec ih (resolve_eq_some hresolve).1).closed

end Stage

/-- What names mean in a call, seen from a stage of its compilation. -/
def Machine.look (m : Machine) (f : Frame) (σ : Stage) (name : String) : HeapM Value :=
  match σ.seen name with
  | some sym => HeapM.read (m.variable f sym)
  | none => pure .undefined

theorem Machine.keepsCells_look (m : Machine) (f : Frame) (σ : Stage) (name : String) :
    (m.look f σ name).KeepsCells := by
  rw [Machine.look]
  cases σ.seen name with
  | some sym => exact .read _
  | none => exact .pure _

/-- The local variables that can be seen from a stage are on the stack. -/
def Machine.HasLocals (m : Machine) (f : Frame) (σ : Stage) : Prop :=
  ∀ name id, σ.symbols.Finds σ.scope name false id → (σ.symbol id).storage = .slot →
    f.base + (σ.symbol id).index < m.stack.size

/-- The code of every name yields what the name means at the last stage. -/
theorem Stage.loads_look {start stop : Stage} (hclosed : start.symbols.Closed) (hframes : m.frames = f :: outer)
    (hlocals : m.HasLocals f stop) : Stage.Loads s full m (m.look f stop) start stop := by
  intro σ σ1 name x depth hstart hresolve hstop fuel pos h vs hroom
  obtain ⟨hfound, hscope⟩ := Stage.resolve_eq_some hresolve
  have hlooked := SymbolTable.resolveFrom_spec (Stage.closed_later hclosed hstart) hfound
  have hknows : σ1.Knows name x (σ1.symbol x) :=
    ⟨hlooked.closed, hlooked.known, rfl, hscope ▸ hlooked.again⟩
  have hlast := hknows.later hstop
  rw [Machine.look, Stage.seen_of_finds hlast.finds, ← hlast.symbol]
  exact yields_load hframes (hlocals name x hlast.finds) hroom

end ScriptEngine
