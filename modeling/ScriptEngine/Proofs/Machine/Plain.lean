import ScriptEngine.Proofs.Machine.Calls
/-!
# Instructions that know no frames

Most instructions work on the values of a machine only: its stack, its globals, its heap and its
count of allocations. What else a machine has, its shell, they neither read nor change. So their
effect can be studied on its own and carried over to a machine in any shell.

The instructions that read variables of a function also look at the cells of places and at the
innermost frame. Their effect is the same in any shell that has the same variables.
-/

namespace ScriptEngine

open Exec Machine

variable {i : Instruction} {s : Setting} {α β : Type} {f : Value → Exec Value}

/-! ### What instructions are made of -/

/-- A property of executions that has the operations on values, and all executions made of them. -/
structure Exec.Closed (s : Setting) (P : ∀ {α : Type}, Exec α → Prop) : Prop where
  pure : ∀ {α : Type} (a : α), P (pure a)
  bind : ∀ {α β : Type} {x : Exec α} {f : α → Exec β}, P x → (∀ a, P (f a)) → P (x >>= f)
  fault : ∀ {α : Type} (f : Fault), P (fault f : Exec α)
  onHeap : ∀ {α : Type} (op : HeapM α), P (onHeap op)
  inspect : ∀ {α : Type} (f : Heap → α), P (inspect f)
  examine : ∀ {α : Type} (f : Heap → Except Fault α), P (examine f)
  alloc : P alloc
  push : ∀ v, P (push s v)
  pop : P pop
  popMany : ∀ n, P (popMany n)
  getGlobal : ∀ slot, P (getGlobal slot)
  setGlobal : ∀ slot v, P (setGlobal slot v)

/-- Whether an instruction works on values only. -/
def Opcode.isPlain : Opcode → Bool
  | .const | .pop | .pushTrue | .pushFalse | .pushUndefined | .equal | .notEqual | .negate | .logicalNot
  | .complement | .binary | .array | .map | .error | .freeze | .index | .slice | .getGlobal | .setGlobal
  | .setSelGlobal | .getBuiltin | .iterInit | .iterNext | .iterKey | .iterValue => true
  | _ => false

namespace Exec

/-- Execution that never calls anything. -/
def plain (s : Setting) (i : Instruction) : Exec Flow := execute s (fun _ _ => fault underflow) 0 i

namespace Closed

variable {P : ∀ {α : Type}, Exec α → Prop} (hP : Closed s P)
include hP

theorem next {x : Exec α} {y : Exec β} (hx : P x) (hy : P y) : P (do let _ ← x; y) := hP.bind hx fun _ => hy

theorem ofExcept (r : Except Fault α) : P (ofExcept r) := by
  cases r with
  | ok a => exact hP.pure a
  | error f => exact hP.fault f

theorem compute (hf : ∀ v, P (f v)) : P (compute s f) := hP.bind hP.pop fun v => hP.bind (hf v) fun _ => hP.push _

theorem produce (hf : ∀ v, P (f v)) : P (produce s f) :=
  hP.bind hP.pop fun v => hP.bind (hf v) fun _ => hP.next hP.alloc (hP.push _)

theorem popSelectors (n : Nat) : P (popSelectors n) :=
  hP.bind (hP.popMany n) fun _ => hP.bind hP.pop fun _ => hP.pure _

theorem assignPart (target v : Value) (selectors : List Value) : P (assignPart target v selectors) := by
  cases selectors with
  | nil => exact hP.fault _
  | cons last path => exact hP.bind (hP.examine _) fun _ => hP.onHeap _

theorem plain (h : i.op.isPlain = true) : P (plain s i) := by
  obtain ⟨offset, op, operands⟩ := i
  have hend : P (Pure.pure Flow.goOn) := hP.pure _
  have hpush : ∀ v, P (do Exec.push s v; return Flow.goOn) := fun v => hP.next (hP.push v) hend
  cases op with
  | const | getBuiltin =>
    unfold Exec.plain execute
    dsimp only
    split
    · exact hpush _
    · exact hP.next (hP.fault _) hend
  | pop =>
    unfold Exec.plain execute
    dsimp only
    rw [discard_eq]
    exact hP.next (hP.next hP.pop (hP.pure _)) hend
  | pushTrue | pushFalse | pushUndefined => exact hpush _
  | equal | notEqual =>
    exact hP.bind hP.pop fun _ => hP.bind hP.pop fun _ => hP.bind (hP.inspect _) fun _ => hpush _
  | negate | complement => exact hP.next (hP.produce fun _ => hP.ofExcept _) hend
  | logicalNot => exact hP.next (hP.compute fun _ => hP.inspect _) hend
  | binary =>
    unfold Exec.plain execute
    dsimp only
    split
    · exact hP.next (hP.fault _) hend
    · refine hP.bind hP.pop fun _ => hP.bind hP.pop fun _ => ?_
      exact hP.bind (hP.onHeap _) fun _ => hP.next hP.alloc (hpush _)
  | array =>
    refine hP.next (hP.ofExcept _) (hP.bind (hP.popMany _) fun _ => hP.next hP.alloc ?_)
    exact hP.bind (hP.onHeap _) fun _ => hpush _
  | map =>
    refine hP.bind (hP.popMany _) fun _ => hP.bind (hP.inspect _) fun _ => hP.next hP.alloc ?_
    exact hP.bind (hP.onHeap _) fun _ => hpush _
  | error => exact hP.next (hP.produce fun _ => hP.pure _) hend
  | freeze | iterInit => exact hP.next (hP.produce fun _ => hP.onHeap _) hend
  | index => exact hP.bind hP.pop fun _ => hP.bind hP.pop fun _ => hP.bind (hP.examine _) fun _ => hpush _
  | slice =>
    refine hP.bind hP.pop fun _ => hP.bind hP.pop fun _ => hP.bind hP.pop fun _ => ?_
    exact hP.bind (hP.onHeap _) fun _ => hP.next hP.alloc (hpush _)
  | getGlobal => exact hP.bind (hP.getGlobal _) fun _ => hpush _
  | setGlobal => exact hP.bind hP.pop fun _ => hP.next (hP.setGlobal _ _) hend
  | setSelGlobal =>
    exact hP.bind (hP.popSelectors _) fun _ => hP.bind (hP.getGlobal _) fun _ => hP.next (hP.assignPart _ _ _) hend
  | iterNext => exact hP.next (hP.compute fun _ => hP.bind (hP.onHeap _) fun _ => hP.pure _) hend
  | iterKey | iterValue => exact hP.next (hP.compute fun _ => hP.examine _) hend
  | _ => cases h

end Closed

end Exec

/-! ### Values in another shell -/

/-- The values of one machine in the shell of another. -/
def Machine.inside (m shell : Machine) : Machine :=
  { shell with heap := m.heap, globals := m.globals, stack := m.stack, allocs := m.allocs }

/-- The outcome of an execution in the shell of a machine. -/
def inShell {ε α : Type} (shell : Machine) : EStateM.Result ε Machine α → EStateM.Result ε Machine α
  | .ok a m => .ok a (m.inside shell)
  | .error e m => .error e (m.inside shell)

/-- An execution that works on values only. -/
def Blind {α : Type} (x : Exec α) : Prop := ∀ m shell : Machine, x (m.inside shell) = inShell shell (x m)

namespace Blind

theorem pure (a : α) : Blind (Pure.pure a) := fun _ _ => rfl

theorem bind {x : Exec α} {f : α → Exec β} (hx : Blind x) (hf : ∀ a, Blind (f a)) : Blind (x >>= f) := by
  intro m shell
  show (EStateM.bind x f) (m.inside shell) = inShell shell ((EStateM.bind x f) m)
  simp only [EStateM.bind, hx m shell]
  cases x m with
  | ok a m' => exact hf a m' shell
  | error e m' => rfl

theorem ite {p : Prop} [Decidable p] {x y : Exec α} (hx : Blind x) (hy : Blind y) : Blind (if p then x else y) := by
  split
  · exact hx
  · exact hy

theorem fault (f : Fault) : Blind (fault f : Exec α) := fun _ _ => rfl

theorem onHeap (op : HeapM α) : Blind (onHeap op) := by
  intro m shell
  simp only [Exec.onHeap, Exec.takeHeap, inside]
  cases op m.heap <;> rfl

theorem inspect (f : Heap → α) : Blind (inspect f) := fun _ _ => rfl

theorem examine (f : Heap → Except Fault α) : Blind (examine f) := by
  intro m shell
  simp only [Exec.examine, inside]
  cases f m.heap <;> rfl

theorem alloc : Blind alloc := by
  intro m shell
  by_cases hzero : m.allocs = 0
  · simp [Exec.alloc, inside, inShell, hzero]
  · by_cases hpos : 0 < m.allocs <;> simp [Exec.alloc, inside, inShell, hzero, hpos]

theorem push (v : Value) : Blind (Exec.push s v) := by
  intro m shell
  by_cases hfull : s.config.stackSize ≤ m.stack.size <;>
    simp [Exec.push, inside, inShell, hfull]

theorem pop : Blind pop := by
  intro m shell
  simp only [Exec.pop, inside]
  cases m.stack.back? <;> rfl

theorem top : Blind top := by
  intro m shell
  simp only [Exec.top, inside]
  cases m.stack.back? <;> rfl

theorem popMany (n : Nat) : Blind (Exec.popMany n) := by
  intro m shell
  by_cases hfew : m.stack.size < n <;> simp [Exec.popMany, inside, inShell, hfew]

theorem getGlobal (slot : Nat) : Blind (getGlobal slot) := by
  intro m shell
  simp only [Exec.getGlobal, inside]
  cases m.globals[slot]? <;> rfl

theorem setGlobal (slot : Nat) (v : Value) : Blind (Exec.setGlobal slot v) := by
  intro m shell
  by_cases hslot : slot < m.globals.size <;> simp [Exec.setGlobal, inside, inShell, hslot]

theorem closed (s : Setting) : Closed s Blind :=
  ⟨pure, bind, fault, onHeap, inspect, examine, alloc, push, pop, popMany, getGlobal, setGlobal⟩

theorem discard {x : Exec α} (hx : Blind x) : Blind (discard x) := by
  exact hx.bind fun _ => pure _

end Blind

/-! ### Reading the variables of a function -/

/-- A shell in which local and captured variables are where they are in a machine. -/
structure Machine.SameVariables (m shell : Machine) : Prop where
  cells : shell.cells = m.cells
  frame : shell.frames.head?.map (fun f => (f.func, f.base)) = m.frames.head?.map fun f => (f.func, f.base)

/-- An execution that works on values and reads variables. -/
def Steady {α : Type} (x : Exec α) : Prop :=
  ∀ m shell : Machine, m.SameVariables shell → x (m.inside shell) = inShell shell (x m)

theorem Blind.steady {x : Exec α} (h : Blind x) : Steady x := fun m shell _ => h m shell

namespace Steady

variable {x : Exec α} {m m' shell : Machine}

/-- The shell of a machine stays as it is. -/
theorem keeps_ok {a : α} (hx : Steady x) (h : x m = .ok a m') : m' = m'.inside m := by
  have hself := hx m m ⟨rfl, rfl⟩
  have hinside : m.inside m = m := rfl
  rw [hinside, h] at hself
  exact (EStateM.Result.ok.inj hself).2

theorem sameVariables {a : α} (hx : Steady x) (h : x m = .ok a m') (hsame : m.SameVariables shell) :
    m'.SameVariables shell := by
  rw [hx.keeps_ok h]
  exact ⟨hsame.cells, hsame.frame⟩

theorem exists_frame {f : Frame} {rest : List Frame}
    (h : shell.frames.head?.map (fun f => (f.func, f.base)) = (f :: rest).head?.map fun f => (f.func, f.base)) :
    ∃ g rest', shell.frames = g :: rest' ∧ g.func = f.func ∧ g.base = f.base := by
  cases hshell : shell.frames with
  | nil => simp [hshell] at h
  | cons g rest' => exact ⟨g, rest', rfl, by simpa [hshell] using h⟩

theorem bind {f : α → Exec β} (hx : Steady x) (hf : ∀ a, Steady (f a)) : Steady (x >>= f) := by
  intro m shell hsame
  show (EStateM.bind x f) (m.inside shell) = inShell shell ((EStateM.bind x f) m)
  simp only [EStateM.bind, hx m shell hsame]
  cases hxm : x m with
  | ok a m' => exact hf a m' shell (hx.sameVariables hxm hsame)
  | error e m' => rfl

theorem getLocal (index : Nat) : Steady (getLocal index) := by
  intro m shell hsame
  have hframe := hsame.frame
  cases hm : m.frames with
  | nil =>
    rw [hm] at hframe
    have hshell : (m.inside shell).frames = [] := by simpa [inside] using hframe
    rw [Exec.getLocal, Exec.bind_error (Exec.localPlace_none hm), Exec.bind_error (Exec.localPlace_none hshell)]
    rfl
  | cons f rest =>
    rw [hm] at hframe
    obtain ⟨g, rest', hshell, hfunc, hbase⟩ := exists_frame hframe
    by_cases hplace : f.base + index < m.stack.size
    · have hplace' : g.base + index < (m.inside shell).stack.size := by rwa [hbase]
      rw [getLocal_eq hm hplace, getLocal_eq (m := m.inside shell) hshell hplace', hbase]
      simp only [valueAt, inside, hsame.cells, inShell]
    · have hplace := Nat.not_lt.1 hplace
      have hplace' : (m.inside shell).stack.size ≤ g.base + index := by rwa [hbase]
      rw [Exec.getLocal, Exec.bind_error (Exec.localPlace_error hm hplace),
        Exec.bind_error (Exec.localPlace_error (m := m.inside shell) hshell hplace')]
      rfl

theorem captured (index : Nat) : Steady (captured index) := by
  intro m shell hsame
  have hframe := hsame.frame
  cases hm : m.frames with
  | nil =>
    rw [hm] at hframe
    have hshell : (m.inside shell).frames = [] := by simpa [inside] using hframe
    rw [Exec.captured, Exec.bind_error (Exec.frame_none hm), Exec.bind_error (Exec.frame_none hshell)]
    rfl
  | cons f rest =>
    rw [hm] at hframe
    obtain ⟨g, rest', hshell, hfunc, hbase⟩ := exists_frame hframe
    cases hcell : f.func.captured[index]? with
    | some cell =>
      rw [captured_eq hm hcell, captured_eq (m := m.inside shell) hshell (hfunc ▸ hcell)]
      rfl
    | none =>
      rw [captured_error hm hcell, captured_error (m := m.inside shell) hshell (hfunc ▸ hcell)]
      rfl

end Steady

/-- Whether an instruction works on values and reads variables. -/
def Opcode.isSteady (op : Opcode) : Bool := op.isPlain || op = .getLocal || op = .getFree

namespace Exec

variable (h : i.op.isSteady = true)
include h

theorem steady_plain : Steady (plain s i) := by
  by_cases hplain : i.op.isPlain = true
  · exact ((Blind.closed s).plain hplain).steady
  obtain ⟨offset, op, operands⟩ := i
  have hend : Steady (Pure.pure Flow.goOn) := (Blind.pure _).steady
  have hpush : ∀ v, Steady (push s v) := fun v => (Blind.push v).steady
  cases op with
  | getLocal => exact (Steady.getLocal _).bind fun v => (hpush v).bind fun _ => hend
  | getFree =>
    exact (Steady.captured _).bind fun _ => (Blind.inspect _).steady.bind fun v => (hpush v).bind fun _ => hend
  | _ => simp_all [Opcode.isSteady, Opcode.isPlain]

/-- The next instruction follows. -/
theorem ensures_plain : Ensures (· = Flow.goOn) (plain s i) := by
  refine ensures_execute (fun hop => ?_) fun hop => ?_ <;> rw [hop] at h <;> cases h

theorem execute_eq_steady (invoke : Invoke) (floor : Nat) : execute s invoke floor i = plain s i := by
  obtain ⟨offset, op, operands⟩ := i
  cases op <;> first | rfl | cases h

end Exec

end ScriptEngine
