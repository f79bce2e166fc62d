import ScriptEngine.Proofs.Compiler.Correct
import ScriptEngine.Proofs.Expression.Names
import ScriptEngine.Proofs.Program.Renumbered
/-!
# Expressions in any call

Compiler correctness for expressions without calls, wherever they stand: in the main program, in a
module or in a function, inside any blocks. A call that comes to the code of such an expression runs
through it and ends after it with the value that the evaluator gives on top of the stack and with the
heap that the evaluator leaves, or it fails for the reason that the evaluator fails for
(`Compile.expr_leaves_iff`). Equal constants may have been merged.
-/

namespace ScriptEngine

open Exec Compile CompileState Machine

variable {c : Code} {o : CompileOptions} {after before : CompileState} {r : Dedup.Renumbering} {e : Expr}
  {importing : Pos → String → CompileM Unit} {s : Setting}

/-! ### Compiling without imports -/

section Importing

variable (i j : Pos → String → CompileM Unit)

mutual

/-- How imports are compiled makes no difference to an expression without any. -/
theorem Compile.expr_congr : (e : Expr) → e.isFirstOrder = true → expr i e = expr j e
  | .ident .., _ | .int .., _ | .float .., _ | .char .., _ | .str .., _ | .bool .., _ | .undefined .., _
  | .bad .., _ => by simp only [expr]
  | .array _ items, h => by simp only [expr, exprs_congr items h]
  | .map _ items, h => by simp only [expr, entries_congr items h]
  | .binary _ lhs op rhs, h => by
    obtain ⟨hl, hr⟩ := Bool.and_eq_true_iff.1 h
    simp only [expr, expr_congr lhs hl, expr_congr rhs hr]
  | .unary _ op operand, h => by simp only [expr, expr_congr operand h]
  | .index _ target key, h => by
    obtain ⟨ht, hk⟩ := Bool.and_eq_true_iff.1 h
    simp only [expr, expr_congr target ht, expr_congr key hk]
  | .select _ target key, h => by simp only [expr, expr_congr target h]
  | .slice pos target low high, h => by
    obtain ⟨h, hhigh⟩ := Bool.and_eq_true_iff.1 h
    obtain ⟨htarget, hlow⟩ := Bool.and_eq_true_iff.1 h
    simp only [expr, expr_congr target htarget, bound_congr pos low hlow,
      bound_congr pos high hhigh]
  | .cond _ c a b, h => by
    obtain ⟨h, hb⟩ := Bool.and_eq_true_iff.1 h
    obtain ⟨hc, ha⟩ := Bool.and_eq_true_iff.1 h
    simp only [expr, expr_congr c hc, expr_congr a ha, expr_congr b hb]
  | .error _ value, h | .immutable _ value, h => by simp only [expr, expr_congr value h]
  | .paren _ inner, h => by simp only [expr, expr_congr inner h]
  | .call .., h | .func .., h | .importModule .., h => nomatch h

theorem Compile.exprs_congr : (es : List Expr) → Expr.allFirstOrder es = true →
    exprs i es = exprs j es
  | [], _ => by simp only [exprs]
  | e :: es, h => by
    obtain ⟨he, hes⟩ := Bool.and_eq_true_iff.1 h
    simp only [exprs, expr_congr e he, exprs_congr es hes]

theorem Compile.entries_congr : (es : List MapEntry) → MapEntry.allFirstOrder es = true →
    entries i es = entries j es
  | [], _ => by simp only [entries]
  | .mk key pos value :: es, h => by
    obtain ⟨hv, hes⟩ := Bool.and_eq_true_iff.1 h
    simp only [entries, expr_congr value hv, entries_congr es hes]

theorem Compile.bound_congr (pos : Pos) : (e : Option Expr) → Expr.boundFirstOrder e = true →
    bound i pos e = bound j pos e
  | none, _ => by simp only [bound]
  | some e, h => by simp only [bound, expr_congr e h]

end

end Importing

/-- Compiles no imports. -/
def Compile.refusing (pos : Pos) (name : String) : CompileM Unit := CompileM.complain pos (.unresolved name)

/-- What compiling an expression without calls produces. -/
theorem Compile.lowers_expr (hcompile : expr importing e o before = ((), after)) (hclean : after.Clean)
    (hfirst : e.isFirstOrder = true) : ∃ c, Lowers o before.context (.expr e) before.stage c after.stage ∧
      after.draft = before.draft.plus c := by
  -- Imports that are refused make no code, so it does not matter how they are compiled.
  have hmeets : Meets o (expr refusing e) (Emits o (fun _ => True) (.expr e)) :=
    meets_expr (fun pos name => (quiet_complain pos _).toMeets.mono fun _ _ _ _ h => h.2.elim) e
  rw [expr_congr importing refusing e hfirst] at hcompile
  have hafter : (expr refusing e o before).2 = after := congrArg Prod.snd hcompile
  obtain ⟨-, c, σ, hlowers, hadvance⟩ := hmeets before (hafter ▸ hclean)
  rw [hafter] at hadvance
  subst hadvance
  exact ⟨c, hlowers trivial, rfl⟩

/-! ### Emitted code in a function -/

/-- The bytes that were appended to the draft between two states of a compilation. -/
def CompileState.emitted (before after : CompileState) : Array UInt8 :=
  after.draft.code.extract before.draft.code.size after.draft.code.size

/-- The code of a function has in its place what was emitted between two states of a compilation, and
the program has the constants that were added, both with numbers that merging has given. -/
structure CompileState.Placed (before after : CompileState) (r : Dedup.Renumbering) (p : Program)
    (code : Array UInt8) : Prop where
  /-- The offsets of the code fit into the operands of jumps. -/
  small : after.draft.code.size < capacity 4
  numbered : after.constants.size ≤ r.assigned.size
  constants : ∀ i v, before.constants.size ≤ i → after.constants[i]? = some v →
    r.number i ≤ CompileM.maxWide ∧ p.constants[r.number i]? = some v
  code : ∃ bytes, r.code (before.emitted after) = some bytes ∧ StandsAt code before.draft.code.size bytes

theorem CompileState.emitted_of_plus (h : after.draft = before.draft.plus c) :
    before.emitted after = (bytesOf (c.lines before.draft.code.size 0 0)).toArray := by
  rw [emitted, h]
  simp [Draft.plus, List.take_of_length_le]

theorem Consecutive.bounds {ls : List Line} {start : Nat} (h : Consecutive start ls) :
    ∀ l ∈ ls, start ≤ l.offset ∧ l.offset < start + (bytesOf ls).length := by
  induction ls generalizing start with
  | nil => exact fun l hl => absurd hl List.not_mem_nil
  | cons l rest ih =>
    have hlength : 0 < l.op.length := Nat.add_pos_left Nat.one_pos _
    rw [bytesOf_cons, List.length_append, Line.length_bytes]
    intro l' hl'
    rcases List.mem_cons.1 hl' with rfl | hl'
    · have := h.1
      omega
    · have := ih h.2 l' hl'
      omega

section Placed

variable {ctx : Context} {φ : Phrase} {code : Array UInt8} (h : before.Placed after r s.program code)
include h

variable (hlowers : Lowers o ctx φ before.stage c after.stage)
include hlowers

variable (hφ : φ.isFirstOrder = true)
include hφ

theorem CompileState.Placed.standsAt
    (hdraft : after.draft = before.draft.plus c) : StandsAt code before.draft.code.size
      (bytesOf ((c.renumber r.number).lines before.draft.code.size 0 0)) := by
  obtain ⟨bytes, hbytes, hstands⟩ := h.code
  have huses : c.All (Opcode.Uses r.assigned.size) :=
    ((hlowers.drawn 0 hφ).draws (Nat.zero_le _)).imp fun _ _ hop => hop.2.mono h.numbered
  rw [emitted_of_plus hdraft, Dedup.Renumbering.code_bytesOf huses, Option.some.injEq] at hbytes
  rw [hbytes]
  exact hstands

/-- The renumbered code consists of instructions that work on values and read variables. -/
theorem CompileState.Placed.basic
    : (c.renumber r.number).All (Opcode.Basic 0) := by
  refine ((hlowers.drawn _ hφ).draws (Nat.le_refl before.constants.size)).renumber fun op operands hboth =>
    hboth.1.renumber fun k rest hop hk => ?_
  obtain ⟨i, _, hi, hlow⟩ := hboth.1.constant hop
  obtain ⟨_, _, heq, hlt, -⟩ := hboth.2 hop
  cases hk.symm.trans hi
  cases hk.symm.trans heq
  exact (h.constants k _ hlow (Array.getElem?_eq_getElem hlt)).1

/-- The renumbered code does in the program what the code did before constants were merged. -/
theorem CompileState.Placed.exec
    (fuel : Nat) :
    (c.renumber r.number).exec s fuel =
      c.exec { s with program := { s.program with constants := after.constants } } fuel := by
  have hdraws := (hlowers.drawn _ hφ).draws (Nat.le_refl before.constants.size)
  refine Code.exec_renumber (s := { s with program := { s.program with constants := after.constants } })
    (hdraws.imp fun _ _ hop => hop.1.steady) ?_ fuel
  refine hdraws.imp fun op operands hboth hop => ?_
  obtain ⟨k, rest, hk, hlow⟩ := hboth.1.constant hop
  obtain ⟨_, _, heq, hlt, -⟩ := hboth.2 hop
  cases hk.symm.trans heq
  have hold : after.constants[k]? = some after.constants[k] := Array.getElem?_eq_getElem hlt
  exact ⟨k, rest, _, hk, (h.constants k _ hlow hold).2, hold⟩

end Placed

/-! ### Running an expression -/

section Running

variable {m : Machine} {f : Frame} {outer : List Frame}

/-- What a machine at the code of an expression does, given what the evaluator gives. -/
def Machine.Evaluates (s : Setting) (m : Machine) (f : Frame) (outer : List Frame) (first last : Nat)
    (invoke : Invoke) (floor : Nat) : EStateM.Result Fault Heap Value → Prop
  | .ok v h => ∃ current ticks, Leaves s invoke floor (f.Within outer first last) m
      { m with
        heap := h, stack := m.stack.push v, frames := { f with next := last, current } :: outer, ticks }
  | .error cause h => ∃ m', Breaks s invoke floor (f.Within outer first last) m (.failure { cause }) m' ∧
      m'.heap = h

theorem Compile.evaluates_expr (hcompile : expr importing e o before = ((), after))
    (hclean : after.Clean) (hfirst : e.isFirstOrder = true) (hclosed : before.symbols.Closed)
    (hplaced : before.Placed after r s.program f.func.code) (hframes : m.frames = f :: outer)
    (hnext : f.next = before.draft.code.size) (hlocals : m.HasLocals f after.stage) (hfree : m.allocs = -1)
    (htoken : m.token.check = .ok ()) (hstack : m.stack.size + e.height ≤ s.config.stackSize)
    (invoke : Invoke) (floor : Nat) :
    m.Evaluates s f outer before.draft.code.size after.draft.code.size invoke floor
      (e.eval s.limits (m.look f after.stage) m.heap) := by
  obtain ⟨c, hlowers, hdraft⟩ := lowers_expr hcompile hclean hfirst
  have hsize : after.draft.code.size = before.draft.code.size + (c.renumber r.number).size := by
    rw [hdraft, Draft.size_plus, Code.size_renumber]
  -- By its structure the code yields the value.
  have hroom : HasRoom s False m (([] : List Value).length + e.height) := fun hlt => by
    simp only [List.length_nil, Nat.zero_add] at hlt
    omega
  have hyields : Yields False m (fun v => (Exit.next, [v]))
      (c.exec { s with program := { s.program with constants := after.constants } } 0 (m.working m.heap []))
      (e.eval s.limits (m.look f after.stage) m.heap) :=
    hlowers.yields hfirst hfree (Stage.loads_look hclosed hframes hlocals) (KeptIn.refl _) (.refl _) (.refl _)
      m.heap [] hroom
  rw [← hplaced.exec hlowers hfirst 0] at hyields
  have hstart : m.working m.heap [] = m := by simp [working]
  rw [hstart] at hyields
  -- In its place it does the same.
  let seat : Seat := ⟨m, f, outer, before.draft.code.size, after.draft.code.size, htoken⟩
  have hbasic := hplaced.basic hlowers hfirst
  have hlines : ∀ l ∈ (c.renumber r.number).lines before.draft.code.size 0 0, seat.Has l := by
    intro l hl
    have hconsecutive := (c.renumber r.number).consecutive_lines before.draft.code.size 0 0
    obtain ⟨hlower, hupper⟩ := hconsecutive.bounds l hl
    rw [Code.length_bytesOf_lines, ← hsize] at hupper
    exact {
      stands := hconsecutive.standsAt (hplaced.standsAt hlowers hfirst hdraft) l hl
      fits := Code.fits_lines (hbasic.imp fun _ _ hop => hop.fits) (hsize ▸ hplaced.small) (by decide)
        (by decide) l hl
      lower := hlower
      upper := hupper }
  have hsuits : seat.Suits m := ⟨rfl, by rw [hframes]; rfl⟩
  have hat : seat.At before.draft.code.size m := by
    refine ⟨f.current, m.ticks, ?_⟩
    rw [← hnext]
    show m = { m with frames := f :: outer }
    rw [← hframes]
  have hlands : Lands s floor 0 seat
      (Exit.target (before.draft.code.size + (c.renumber r.number).size) 0 0) m
      ((c.renumber r.number).exec s 0 m) :=
    Code.lands (hbasic.imp fun _ _ hop => hop.steady) hlines hsuits hat
  rw [← hsize] at hlands
  cases heval : e.eval s.limits (m.look f after.stage) m.heap with
  | ok v h =>
    rw [heval] at hyields
    rw [hyields.resolve_right fun hfull => hfull.1] at hlands
    obtain ⟨-, k, shell, ⟨current, ticks, rfl⟩, hreach⟩ := hlands
    refine ⟨current, ticks, ?_, ?_⟩
    · have hpath := hreach.confined invoke
      exact hpath
    · rintro ⟨offset, current', hoffset, -, hlt⟩
      cases hoffset
      exact Nat.lt_irrefl _ hlt
  | error cause h =>
    rw [heval] at hyields
    obtain ⟨_, _, hexec, rfl, vs, rfl⟩ := hyields.resolve_right fun hfull => hfull.1
    rw [hexec] at hlands
    rcases hlands with ⟨k, m₁, shell, hreach, hwithin, hhalts⟩ | ⟨hfuel, -⟩
    · exact ⟨_, ⟨m₁, hreach.confined invoke, hwithin, hhalts invoke⟩, rfl⟩
    · cases hfuel

/-- Compiler correctness for expressions without calls, in a call of any function: the machine runs
through the code of the expression and ends after it with one more value and another heap, and with
all else as it was, just when the evaluator gives that value and that heap; and it fails just when the
evaluator fails for the same reason. -/
theorem Compile.expr_leaves_iff (hcompile : expr importing e o before = ((), after))
    (hclean : after.diagnostics = #[]) (hfirst : e.isFirstOrder = true) (hclosed : before.symbols.Closed)
    (hplaced : before.Placed after r s.program f.func.code) (hframes : m.frames = f :: outer)
    (hnext : f.next = before.draft.code.size) (hlocals : m.HasLocals f after.stage) (hfree : m.allocs = -1)
    (htoken : m.token.check = .ok ()) (hstack : m.stack.size + e.height ≤ s.config.stackSize)
    (invoke : Invoke) (floor : Nat) :
    (∀ v h, (∃ current ticks,
        Leaves s invoke floor (f.Within outer before.draft.code.size after.draft.code.size) m
          { m with
            heap := h, stack := m.stack.push v,
            frames := { f with next := after.draft.code.size, current } :: outer, ticks } ∧
        h.cells = m.heap.cells) ↔
      e.eval s.limits (m.look f after.stage) m.heap = .ok v h) ∧
    ∀ cause h, (∃ failure m',
        Breaks s invoke floor (f.Within outer before.draft.code.size after.draft.code.size) m
          (.failure failure) m' ∧ failure.cause = cause ∧ m'.heap = h) ↔
      e.eval s.limits (m.look f after.stage) m.heap = .error cause h := by
  have hevaluates := evaluates_expr hcompile hclean hfirst hclosed hplaced hframes hnext hlocals hfree
    htoken hstack invoke floor
  have hcells := Expr.keepsCells_eval (l := s.limits) (m.keepsCells_look f after.stage) e m.heap
  refine ⟨fun v h => ⟨?_, ?_⟩, fun cause h => ⟨?_, ?_⟩⟩
  · rintro ⟨current, ticks, hleaves, -⟩
    cases heval : e.eval s.limits (m.look f after.stage) m.heap with
    | ok v' h' =>
      rw [heval] at hevaluates
      obtain ⟨current', ticks', hleaves'⟩ := hevaluates
      have hsame := hleaves.eq hleaves'
      obtain rfl : h = h' := congrArg heap hsame
      have hpush : m.stack.push v = m.stack.push v' := congrArg stack hsame
      rw [(Array.push_eq_push.1 hpush).1]
    | error cause h' =>
      rw [heval] at hevaluates
      obtain ⟨m', hbreaks, -⟩ := hevaluates
      exact absurd hbreaks hleaves.not_breaks
  · intro heval
    rw [heval] at hevaluates hcells
    obtain ⟨current, ticks, hleaves⟩ := hevaluates
    exact ⟨current, ticks, hleaves, hcells⟩
  · rintro ⟨failure, m', hbreaks, rfl, rfl⟩
    cases heval : e.eval s.limits (m.look f after.stage) m.heap with
    | ok v' h' =>
      rw [heval] at hevaluates
      obtain ⟨current, ticks, hleaves⟩ := hevaluates
      exact absurd hbreaks hleaves.not_breaks
    | error cause h' =>
      rw [heval] at hevaluates
      obtain ⟨m₁, hbreaks', rfl⟩ := hevaluates
      obtain ⟨hfailure, rfl⟩ := hbreaks.eq hbreaks'
      cases hfailure
      rfl
  · intro heval
    rw [heval] at hevaluates
    obtain ⟨m', hbreaks, hheap⟩ := hevaluates
    exact ⟨_, m', hbreaks, rfl, hheap⟩

end Running

/-! ### A variable of an enclosing function -/

/-- The names inside `func(a) { func(b) { … } }`. -/
def SymbolTable.nested : SymbolTable :=
  let t := (withBuiltins.fork root false).2
  let (a, t) := t.define 1 "a"
  let t := ((t.markAssigned a).fork 1 false).2
  let (b, t) := t.define 2 "b"
  t.markAssigned b

theorem SymbolTable.closed_nested : nested.Closed := by
  exact ((((housed_withBuiltins.closed.fork root false).define 1 "a").markAssigned _).fork 1 false).define 2 "b"
    |>.markAssigned _

/-- `b ? a + 1 : a`. -/
def Expr.choice : Expr :=
  .cond Pos.unknown (.name "b") (.binaryOf (.name "a") (.arith .add) (.int Pos.unknown 1)) (.name "a")

/-- Before the expression, inside both functions. -/
def CompileState.nested : CompileState := { symbols := .nested, scope := 2 }

/-- After the expression. -/
def CompileState.chosen : CompileState := (expr refusing .choice {} .nested).2

/-- A call of the inner function. -/
def Frame.choosing : Frame := { func := { id := 0, code := chosen.draft.code, captured := #[0] } }

/-- The variable `a` is in a cell and `b` on the stack. -/
def Machine.choosing : Machine :=
  { heap := { cells := #[.int 41] }, stack := #[.bool true], frames := [.choosing] }

/-- The program whose constants are those of the expression. -/
def Setting.choosing : Setting := { program := { constants := chosen.constants } }

theorem CompileState.placed_chosen : nested.Placed .chosen
    { total := 1, assigned := Array.range chosen.constants.size } Setting.choosing.program
    Frame.choosing.func.code where
  small := by decide +kernel
  numbered := by simp
  constants i v _ hv := by
    obtain ⟨hlt, -⟩ := Array.getElem?_eq_some_iff.1 hv
    have hsize : chosen.constants.size = 1 := by decide +kernel
    have hnumber : Dedup.Renumbering.number
        { total := 1, assigned := Array.range chosen.constants.size } i = i := by
      simp [Dedup.Renumbering.number, hlt]
    rw [hnumber]
    refine ⟨?_, hv⟩
    rw [hsize] at hlt
    exact Nat.le_trans (Nat.le_of_lt hlt) (by decide)
  code := ⟨chosen.draft.code.toList, by decide +kernel, by
    rw [StandsAt]
    decide +kernel⟩

theorem Machine.hasLocals_choosing : choosing.HasLocals .choosing chosen.stage := by
  have hall : chosen.symbols.symbols.all (fun sym => sym.storage != .slot || sym.index == 0) = true := by
    decide +kernel
  intro name id _ hslot
  rw [Stage.symbol, SymbolTable.symbol] at hslot ⊢
  rcases Nat.lt_or_ge id chosen.stage.symbols.symbols.size with hlt | hge
  · have hindex := Array.all_eq_true.1 hall id hlt
    simp only [Bool.or_eq_true, bne_iff_ne, beq_iff_eq] at hindex
    simp only [Array.getD, hlt, dite_true] at hslot ⊢
    have hzero := hindex.resolve_left fun hne => hne hslot
    exact Nat.lt_of_le_of_lt (Nat.le_of_eq ((Nat.zero_add _).trans hzero)) Nat.one_pos
  · simp only [Array.getD, Nat.not_lt.2 hge, dite_false] at hslot
    cases hslot

theorem Compile.expr_leaves_iff_choice :
    ∃ v h, Expr.choice.eval {} (choosing.look .choosing chosen.stage) choosing.heap =
        .ok v h ∧
      ∃ current ticks, Leaves .choosing (Exec.invoke .choosing 0) 0
        (Frame.choosing.Within [] 0 chosen.draft.code.size) .choosing
        { choosing with
          heap := h, stack := choosing.stack.push v,
          frames := [{ Frame.choosing with next := chosen.draft.code.size, current }], ticks } ∧
        h.cells = choosing.heap.cells := by
  have hcompile : expr refusing .choice {} .nested = ((), .chosen) := rfl
  obtain ⟨hleaves, -⟩ := expr_leaves_iff (s := .choosing) (m := .choosing) hcompile (by decide +kernel)
    rfl SymbolTable.closed_nested placed_chosen rfl rfl hasLocals_choosing rfl rfl
    (by decide +kernel) (Exec.invoke .choosing 0) 0
  have hok : isOk (Expr.choice.eval {} (choosing.look .choosing chosen.stage)
      choosing.heap) = true := by decide +kernel
  obtain ⟨v, h, heval⟩ := exists_of_isOk hok
  exact ⟨v, h, heval, (hleaves v h).2 heval⟩

end ScriptEngine
