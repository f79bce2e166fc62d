import ScriptEngine.Proofs.Builtins
import ScriptEngine.Proofs.Machine.Calls
import ScriptEngine.Proofs.Machine.Plain
/-!
# Tied machines

Two machines whose programs, settings and values correspond do the same (`Exec.Agree`). What the functions of
two programs must have in common for this is `Correspondence.Runs`: at every offset at which they are executed
they have the same instruction up to where its constant is. What the first machine holds may obey a law
besides, and then it stays within its sizes (`Machine.Tied`). This module states it and shows it of what a
machine does with its heap, its stack and its variables.
-/

namespace ScriptEngine

open Exec

variable {cell : Addr} {p1 p2 : Program} {p : Prop} {s1 s2 : Setting} {f g : Value → Exec Value}

variable {xs ys : Array Value} {i j : Instruction} {m m1 m2 : Machine} {n : Nat} {v w : Value}

variable {κ : Correspondence} {law : ValueLaw} {τ : Tie}

/-! ### Functions and programs -/

/-- The instruction at an offset of a function, or why there is none. -/
def Function.instructionAt (f : Function) (offset : Nat) : Except Fault Instruction :=
  match f.code[offset]? with
  | none => .error (.custom "instruction pointer out of range")
  | some byte =>
    match Instruction.decodeAt f.code offset byte with
    | .error _ => .error (.invalidInstruction byte)
    | .ok i => .ok i

/-- The function among the constants, if there is one at an index. -/
def Program.functionAt? (p : Program) (index : Nat) : Option Function :=
  match p.constants[index]? with
  | some (.function f) => some f
  | _ => none

/-- New functions made from two functions and `n` cells correspond. -/
def Correspondence.Makes (κ : Correspondence) (n : Nat) (f g : Function) : Prop :=
  ∀ id captured, captured.size = n → κ.function { f with id, captured } { g with id := κ.ids id, captured }

/-- The same instruction up to where its constant is. -/
inductive Instruction.Corresponds (κ : Correspondence) (p1 p2 : Program) : Instruction → Instruction → Prop where
  | same {i : Instruction} (hconst : i.op ≠ .const) (hclosure : i.op ≠ .closure) : Corresponds κ p1 p2 i i
  | const {offset : Nat} {xs ys : List Nat}
      (h : Option.Rel (Value.Corresponds κ) p1.constants[xs.headD 0]? p2.constants[ys.headD 0]?)
      (hnone : p1.constants[xs.headD 0]? = none → xs.headD 0 = ys.headD 0) :
      Corresponds κ p1 p2 ⟨offset, .const, xs⟩ ⟨offset, .const, ys⟩
  | closure {offset : Nat} {xs ys : List Nat}
      (h : Option.Rel (κ.Makes (xs.tail.headD 0)) (p1.functionAt? (xs.headD 0)) (p2.functionAt? (ys.headD 0)))
      (hnone : p1.functionAt? (xs.headD 0) = none → xs.headD 0 = ys.headD 0)
      (hcells : xs.tail.headD 0 = ys.tail.headD 0) :
      Corresponds κ p1 p2 ⟨offset, .closure, xs⟩ ⟨offset, .closure, ys⟩

theorem Instruction.Corresponds.next_eq (h : i.Corresponds κ p1 p2 j) : i.offset = j.offset ∧ i.next = j.next := by
  cases h <;> exact ⟨rfl, rfl⟩

theorem Instruction.Corresponds.eq_of_isJump (h : i.Corresponds κ p1 p2 j) (hjump : i.op.isJump = true) : i = j := by
  cases h with
  | same => rfl
  | const | closure => cases hjump

/-- Functions that correspond run alike in two programs. -/
structure Correspondence.Runs (κ : Correspondence) (p1 p2 : Program) : Prop where
  locals : ∀ {f g}, κ.function f g → g.locals = f.locals
  parameters : ∀ {f g}, κ.function f g → g.parameters = f.parameters
  variadic : ∀ {f g}, κ.function f g → g.variadic = f.variadic
  captured : ∀ {f g}, κ.function f g → g.captured = f.captured
  position : ∀ {f g}, κ.function f g → ∀ n, g.positions.find n = f.positions.find n
  start : ∀ {f g}, κ.function f g → κ.offset f g 0
  instruction : ∀ {f g}, κ.function f g → ∀ {n}, κ.offset f g n →
    (∃ i j, f.instructionAt n = .ok i ∧ g.instructionAt n = .ok j ∧ i.Corresponds κ p1 p2 j) ∨
      ∃ c, f.instructionAt n = .error c ∧ g.instructionAt n = .error c
  next : ∀ {f g}, κ.function f g → ∀ {n}, κ.offset f g n → ∀ {i}, f.instructionAt n = .ok i →
    κ.offset f g i.next ∧ (i.op.isJump = true → κ.offset f g i.first)
  returns : ∀ {f g}, κ.function f g → ∀ {n}, κ.offset f g n →
    (g.code[n]? == some Opcode.ret.byte && g.code[n + 1]? == some 1) =
      (f.code[n]? == some Opcode.ret.byte && f.code[n + 1]? == some 1)

section Unmoved

open Correspondence (unmoved)

variable {excused : Fault → Prop}

/-- An instruction is the same in a program as in itself. -/
theorem Instruction.corresponds_unmoved (p : Program) (i : Instruction) : i.Corresponds (unmoved excused) p p i := by
  obtain ⟨offset, op, operands⟩ := i
  cases op with
  | const =>
    refine .const ?_ fun _ => rfl
    cases p.constants[operands.headD 0]? with
    | none => exact .none
    | some v => exact .some (Value.corresponds_unmoved_iff.2 rfl)
  | closure =>
    refine .closure ?_ (fun _ => rfl) rfl
    cases p.functionAt? (operands.headD 0) with
    | none => exact .none
    | some f => exact .some fun id captured _ => rfl
  | _ => exact .same (by simp) (by simp)

/-- A program runs like itself. -/
theorem Correspondence.runs_unmoved (p : Program) : (unmoved excused).Runs p p where
  locals := by rintro f g rfl; rfl
  parameters := by rintro f g rfl; rfl
  variadic := by rintro f g rfl; rfl
  captured := by rintro f g rfl; rfl
  position := by rintro f g rfl n; rfl
  start := fun _ => trivial
  instruction := by
    rintro f g rfl n -
    cases h : f.instructionAt n with
    | ok i => exact .inl ⟨i, i, rfl, rfl, i.corresponds_unmoved p⟩
    | error c => exact .inr ⟨c, rfl, rfl⟩
  next := fun _ _ _ _ _ => ⟨trivial, fun _ => trivial⟩
  returns := by rintro f g rfl n -; rfl

end Unmoved

/-! ### Hosts -/

/-- Nothing excuses the first side. -/
def Correspondence.IsStrict (κ : Correspondence) : Prop := ∀ f, ¬κ.excused f

/-- Two operations of hosts do the same to heaps that correspond. -/
def HeapM.Matches (κ : Correspondence) (x y : HeapM Value) : Prop :=
  ∀ h1 h2, h1.Corresponds κ h2 →
    (∃ v w h1' h2', x h1 = .ok v h1' ∧ y h2 = .ok w h2' ∧ v.Corresponds κ w ∧ HeapM.After κ h1 h2 h1' h2') ∨
      ∃ f h1' h2', x h1 = .error f h1' ∧ y h2 = .error f h2' ∧ HeapM.After κ h1 h2 h1' h2'

/-- Functions of hosts that ask for the same and go on in the same way after the same answer. If something is
excused they must not see failures, since one of them could be swallowed. -/
inductive HostAction.Corresponds (κ : Correspondence) (l1 l2 : Limits) : HostAction → HostAction → Prop where
  | give {v w : Value} (h : v.Corresponds κ w) : Corresponds κ l1 l2 (.done (.ok v)) (.done (.ok w))
  | fail (f : Failure) : Corresponds κ l1 l2 (.done (.error f)) (.done (.error f))
  | call {callee callee' : Value} {args args' : List Value} {next next' : Except Failure Value → HostAction}
      (hstrict : κ.IsStrict) (hcallee : callee.Corresponds κ callee')
      (hargs : List.Forall₂ (Value.Corresponds κ) args args')
      (hok : ∀ v w, v.Corresponds κ w → Corresponds κ l1 l2 (next (.ok v)) (next' (.ok w)))
      (herror : ∀ f, Corresponds κ l1 l2 (next (.error f)) (next' (.error f))) :
      Corresponds κ l1 l2 (.call callee args next) (.call callee' args' next')
  | onHeap {op op' : HeapM Value} {next next' : Except Fault Value → HostAction}
      (hop : HeapM.Matches κ op op')
      (hok : ∀ v w, v.Corresponds κ w → Corresponds κ l1 l2 (next (.ok v)) (next' (.ok w)))
      (herror : ∀ f, Corresponds κ l1 l2 (next (.error f)) (next' (.error f))) :
      Corresponds κ l1 l2 (.onHeap op next) (.onHeap op' next')
  | limits {next next' : Limits → HostAction} (h : Corresponds κ l1 l2 (next l1) (next' l2)) :
      Corresponds κ l1 l2 (.limits next) (.limits next')
  | cancel {next next' : HostAction} (h : Corresponds κ l1 l2 next next') :
      Corresponds κ l1 l2 (.cancel next) (.cancel next')

/-- The functions of two hosts do the same to arguments that correspond. -/
def Host.Corresponds (κ : Correspondence) (l1 l2 : Limits) (host1 host2 : Host) : Prop :=
  ∀ name args args', List.Forall₂ (Value.Corresponds κ) args args' →
    (host1 name args).Corresponds κ l1 l2 (host2 name args')

/-- A host that sees neither where things are nor what functions are made of. -/
def Host.IsUniform (host : Host) (limits : Limits) : Prop :=
  ∀ κ : Correspondence, κ.IsStrict → host.Corresponds κ limits limits host

theorem Host.corresponds_none (κ : Correspondence) (l1 l2 : Limits) : Host.none.Corresponds κ l1 l2 Host.none :=
  fun _ _ _ _ => .fail _

theorem Host.isUniform_none (limits : Limits) : Host.none.IsUniform limits :=
  fun κ _ => Host.corresponds_none κ limits limits

/-! ### Machines -/

/-- `n` values were allocated while `a` were allowed, and `x` are left. -/
def Spent (n : Nat) (a x : Int) : Prop := a < 0 ∧ x = a ∨ 0 ≤ x ∧ x + n = a

theorem spent_zero (a : Int) : Spent 0 a a := by
  unfold Spent
  omega

theorem Spent.unique {a x y : Int} (hx : Spent n a x) (hy : Spent n a y) : x = y := by
  unfold Spent at hx hy
  omega

/-- The same number of values may be allocated on both sides, or more on the second side if running out is
excused. -/
def Correspondence.Allows (κ : Correspondence) (a1 a2 : Int) : Prop :=
  a1 = a2 ∨ (a2 < 0 ∨ 0 ≤ a1 ∧ a1 ≤ a2) ∧ κ.excused .allocationLimit

/-! ### Laws -/

/-- What a function of the host does obeys a law as long as what it gets does. -/
def HostAction.Obeys (law : ValueLaw) : HostAction → Prop
  | .done (.ok v) => v.Obeys law
  | .done (.error _) => True
  | .call callee args next => callee.Obeys law ∧ (∀ v ∈ args, v.Obeys law) ∧
    (∀ v, v.Obeys law → (next (.ok v)).Obeys law) ∧ ∀ f, (next (.error f)).Obeys law
  | .onHeap op next => HeapM.Keeps law (Value.Obeys law) op ∧
    (∀ v, v.Obeys law → (next (.ok v)).Obeys law) ∧ ∀ f, (next (.error f)).Obeys law
  | .limits next => ∀ l, (next l).Obeys law
  | .cancel next => next.Obeys law

/-- A law permits what a setting does. -/
structure ValueLaw.Governs (law : ValueLaw) (s : Setting) : Prop where
  permits : law.Permits s.limits
  /-- The arguments beyond the fixed ones become an array, which is limited by the stack only. -/
  variadic : ∀ f, law.function f → f.variadic = true → ∀ n ≤ s.config.stackSize, law.arraySize n
  host : ∀ name args, law.native (.host name) → (∀ v ∈ args, v.Obeys law) → (s.host name args).Obeys law

/-- What an instruction of a program puts on the stack on its own obeys a law. -/
def Instruction.Lawful (law : ValueLaw) (p : Program) (i : Instruction) : Prop :=
  match i.op with
  | .const => ∀ v, p.constants[i.first]? = some v → v.Obeys law
  | .closure => ∀ f, p.functionAt? i.first = some f → ∀ id (captured : Array Addr), captured.size = i.second →
    (∀ a ∈ captured, law.cells a) → law.function { f with id, captured }
  | .getBuiltin => ∀ b, Builtin.all[i.first]? = some b → law.native (.builtin b)
  | .iterKey => ∀ s, law.string s
  | _ => True

/-- All instructions of the functions that may be active are lawful. -/
def ValueLaw.Follows (law : ValueLaw) (p : Program) : Prop :=
  ∀ f, law.code f → ∀ n i, f.instructionAt n = .ok i → i.Lawful law p

theorem ValueLaw.follows_anything (p : Program) : anything.Follows p := by
  rintro f - n ⟨offset, op, operands⟩ -
  cases op with
  | const => exact fun v _ => v.obeys_anything
  | closure => exact fun _ _ _ _ _ _ => trivial
  | getBuiltin => exact fun _ _ => trivial
  | iterKey => exact fun _ => trivial
  | _ => trivial

/-! ### Ties of heaps and hosts -/

/-- Tied heaps with the same cells and functions. -/
structure Heap.Linked (τ : Tie) (h1 h2 : Heap) : Prop extends h1.Tied τ h2 where
  contents : Pointwise (Value.Corresponds τ.toCorrespondence) h1.cells h2.cells
  newFunction : ∀ k, τ.ids (h1.functions + k) = h2.functions + k

theorem Heap.Linked.after {h1 h2 h1' h2' : Heap} (h : h1.Linked τ h2) (htied : h1'.Tied τ h2') (hleft : h1.Keeps h1')
    (hright : h2.Keeps h2') : h1'.Linked τ h2' where
  toTied := htied
  contents := by
    rw [hleft.cells, hright.cells]
    exact h.contents
  newFunction := by
    rw [hleft.functions, hright.functions]
    exact h.newFunction

/-- Two operations of hosts do the same to linked heaps. -/
def HeapM.Joint (τ : Tie) (x y : HeapM Value) : Prop :=
  ∀ h1 h2, h1.Linked τ h2 →
    (∃ v w h1' h2', x h1 = .ok v h1' ∧ y h2 = .ok w h2' ∧ v.Tied τ w ∧ h1'.Linked τ h2') ∨
      ∃ f h1' h2', x h1 = .error f h1' ∧ y h2 = .error f h2' ∧ h1'.Linked τ h2'

/-- Functions of hosts that do the same as long as they get tied values. -/
inductive HostAction.Tied (τ : Tie) (l1 l2 : Limits) : HostAction → HostAction → Prop where
  | give {v w : Value} (h : v.Tied τ w) : Tied τ l1 l2 (.done (.ok v)) (.done (.ok w))
  | fail (f : Failure) : Tied τ l1 l2 (.done (.error f)) (.done (.error f))
  | call {callee callee' : Value} {args args' : List Value} {next next' : Except Failure Value → HostAction}
      (hstrict : τ.IsStrict) (hcallee : callee.Tied τ callee') (hargs : List.Forall₂ (Value.Tied τ) args args')
      (hok : ∀ v w, v.Tied τ w → Tied τ l1 l2 (next (.ok v)) (next' (.ok w)))
      (herror : ∀ f, Tied τ l1 l2 (next (.error f)) (next' (.error f))) :
      Tied τ l1 l2 (.call callee args next) (.call callee' args' next')
  | onHeap {op op' : HeapM Value} {next next' : Except Fault Value → HostAction} (hop : HeapM.Joint τ op op')
      (hok : ∀ v w, v.Tied τ w → Tied τ l1 l2 (next (.ok v)) (next' (.ok w)))
      (herror : ∀ f, Tied τ l1 l2 (next (.error f)) (next' (.error f))) :
      Tied τ l1 l2 (.onHeap op next) (.onHeap op' next')
  | limits {next next' : Limits → HostAction} (h : Tied τ l1 l2 (next l1) (next' l2)) :
      Tied τ l1 l2 (.limits next) (.limits next')
  | cancel {next next' : HostAction} (h : Tied τ l1 l2 next next') : Tied τ l1 l2 (.cancel next) (.cancel next')

/-- Programs, limits and hosts are tied. -/
structure Setting.Tied (τ : Tie) (s1 s2 : Setting) : Prop where
  files : s2.program.files = s1.program.files
  runs : τ.Runs s1.program s2.program
  main : τ.function s1.program.main s2.program.main
  limits : s1.limits.Tied τ s2.limits
  allocs : τ.Allows τ.allowed₁ τ.allowed₂
  stackSize : τ.Bounds .stackOverflow s1.config.stackSize s2.config.stackSize
  maxFrames : τ.Bounds .stackOverflow s1.config.maxFrames s2.config.maxFrames
  interval : s2.config.checkInterval = s1.config.checkInterval
  reuse : s2.config.reuseFrames = s1.config.reuseFrames
  variadic : ∀ f, τ.law.function f → f.variadic = true → ∀ n ≤ s1.config.stackSize, τ.law.arraySize n
  host : ∀ name args args', τ.law.native (.host name) → List.Forall₂ (Value.Tied τ) args args' →
    (s1.host name args).Tied τ s1.limits s2.limits (s2.host name args')

/-! ### Settings that correspond -/

/-- Programs, limits and hosts correspond. -/
structure Setting.Corresponds (κ : Correspondence) (s1 s2 : Setting) : Prop where
  files : s2.program.files = s1.program.files
  runs : κ.Runs s1.program s2.program
  main : κ.function s1.program.main s2.program.main
  limits : s1.limits.Corresponds κ s2.limits
  allocs : κ.Allows s1.limits.maxAllocs s2.limits.maxAllocs
  stackSize : κ.Bounds .stackOverflow s1.config.stackSize s2.config.stackSize
  maxFrames : κ.Bounds .stackOverflow s1.config.maxFrames s2.config.maxFrames
  interval : s2.config.checkInterval = s1.config.checkInterval
  reuse : s2.config.reuseFrames = s1.config.reuseFrames
  host : s1.host.Corresponds κ s1.limits s2.limits s2.host

section Free

/-- A correspondence with the law that asks for nothing. -/
def Correspondence.tie (κ : Correspondence) (globals : Nat) (allowed₁ allowed₂ : Int) : Tie :=
  { κ with law := .anything, globals, allowed₁, allowed₂ }

variable {a1 a2 : Int}

theorem Value.Corresponds.free (h : v.Corresponds κ w) : v.Tied (κ.tie n a1 a2) w := h.tied v.obeys_anything

theorem HostAction.Corresponds.tied {a b : HostAction} {l1 l2 : Limits} (h : a.Corresponds κ l1 l2 b) :
    a.Tied (κ.tie n a1 a2) l1 l2 b := by
  induction h with
  | give h => exact .give h.free
  | fail f => exact .fail f
  | call hstrict hcallee hargs _ _ ihok iherror =>
    exact .call hstrict hcallee.free (hargs.imp fun _ _ h => h.free) (fun v w hv => ihok v w hv.corresponds) iherror
  | onHeap hop _ _ ihok iherror =>
    refine .onHeap (fun h1 h2 hh => ?_) (fun v w hv => ihok v w hv.corresponds) iherror
    rcases hop h1 h2 hh.corresponds with ⟨v, w, h1', h2', hx, hy, hv, ha⟩ | ⟨f, h1', h2', hx, hy, ha⟩
    · exact .inl ⟨v, w, h1', h2', hx, hy, hv.free, hh.after ⟨ha.corresponds, h1'.obeys_anything⟩ ha.left ha.right⟩
    · exact .inr ⟨f, h1', h2', hx, hy, hh.after ⟨ha.corresponds, h1'.obeys_anything⟩ ha.left ha.right⟩
  | limits _ ih => exact .limits ih
  | cancel _ ih => exact .cancel ih

theorem Setting.Corresponds.tied (h : s1.Corresponds κ s2) (n : Nat) :
    s1.Tied (κ.tie n s1.limits.maxAllocs s2.limits.maxAllocs) s2 :=
  { h with
    limits := { h.limits with permits := ValueLaw.permits_anything _ }
    variadic := fun _ _ _ _ _ => trivial
    host := fun name _ _ _ hargs => (h.host name _ _ (hargs.imp fun _ _ h => h.corresponds)).tied }

end Free

/-! ### Machines -/

/-- Calls of tied functions at the same place. -/
structure Frame.Tied (τ : Tie) (f g : Frame) : Prop where
  func : τ.function f.func g.func
  code : τ.law.code f.func
  reached : τ.offset f.func g.func f.next
  next : g.next = f.next
  current : g.current = f.current
  base : g.base = f.base

/-- The same cell at a place of the law, or none. -/
def CellsMatch (τ : Tie) (x y : Option Addr) : Prop := y = x ∧ ∀ a, x = some a → τ.law.cells a

theorem cellsMatch_none : CellsMatch τ none none := ⟨rfl, by simp⟩

/-- Everything in two machines is tied, and the first one is within its sizes. -/
structure Machine.Tied (τ : Tie) (s : Setting) (m1 m2 : Machine) : Prop where
  heap : m1.heap.Linked τ m2.heap
  globals : Pointwise (Value.Tied τ) m1.globals m2.globals
  count : m1.globals.size = τ.globals
  stack : Pointwise (Value.Tied τ) m1.stack m2.stack
  room : m1.stack.size ≤ s.config.stackSize
  cells : Pointwise (CellsMatch τ) m1.cells m2.cells
  places : m1.cells.size ≤ s.config.stackSize
  captures : Pointwise (fun a b => τ.law.cells a ∧ a = b) m1.captures m2.captures
  frames : List.Forall₂ (Frame.Tied τ) m1.frames m2.frames
  depth : m1.frames.length ≤ max 1 s.config.maxFrames
  allocs : ∃ n, Spent n τ.allowed₁ m1.allocs ∧ Spent n τ.allowed₂ m2.allocs
  ticks : m2.ticks = m1.ticks
  token : m2.token = m1.token
  status : m2.status = m1.status

namespace Exec

/-- Outcomes of two executions. -/
inductive Outcome {α β : Type} (τ : Tie) (s : Setting) (R : α → β → Prop) :
    EStateM.Result Halt Machine α → EStateM.Result Halt Machine β → Prop where
  | ok {a : α} {b : β} {m1 m2 : Machine} (h : R a b) (hm : m1.Tied τ s m2) :
      Outcome τ s R (.ok a m1) (.ok b m2)
  | error {e : Halt} {m1 m2 : Machine} (hm : m1.Tied τ s m2) :
      Outcome τ s R (.error e m1) (.error e m2)
  | excused {f : Failure} {m1 : Machine} {r : EStateM.Result Halt Machine β} (h : τ.excused f.cause) :
      Outcome τ s R (.error (.failure f) m1) r

/-- Two executions do the same to tied machines. -/
def Agree {α β : Type} (τ : Tie) (s : Setting) (R : α → β → Prop) (x : Exec α) (y : Exec β) : Prop :=
  ∀ m1 m2, m1.Tied τ s m2 → Outcome τ s R (x m1) (y m2)

variable {α β γ δ : Type} {R : α → β → Prop} {R' : γ → δ → Prop}

/-- A check that fails on one side only if that is excused. -/
theorem Outcome.check {f : Fault} {p1 p2 : Prop} [Decidable p1] [Decidable p2]
    {r1 : EStateM.Result Halt Machine α} {r2 : EStateM.Result Halt Machine β}
    (hp : (p1 ↔ p2) ∨ (p2 → p1) ∧ τ.excused f) (hm : m1.Tied τ s1 m2) (h : ¬p1 → Outcome τ s1 R r1 r2) :
    Outcome τ s1 R (if p1 then .error (.failure { cause := f }) m1 else r1)
      (if p2 then .error (.failure { cause := f }) m2 else r2) := by
  by_cases hfails : p1
  · rw [if_pos hfails]
    rcases hp with hiff | ⟨-, hexcused⟩
    · rw [if_pos (hiff.1 hfails)]
      exact .error hm
    · exact .excused hexcused
  · have hpasses : ¬p2 := by
      rcases hp with hiff | ⟨himp, -⟩
      · exact mt hiff.2 hfails
      · exact mt himp hfails
    rw [if_neg hfails, if_neg hpasses]
    exact h hfails

/-- What follows two executions that went well. -/
theorem Outcome.next {x : Exec α} {y : Exec β} {f : α → Exec γ} {g : β → Exec δ} (h : Outcome τ s1 R (x m1) (y m2))
    (hnext : ∀ a b m1' m2', R a b → m1'.Tied τ s1 m2' → x m1 = .ok a m1' → y m2 = .ok b m2' →
      Outcome τ s1 R' (f a m1') (g b m2')) : Outcome τ s1 R' ((x >>= f) m1) ((y >>= g) m2) := by
  show Outcome τ s1 R' (EStateM.bind x f m1) (EStateM.bind y g m2)
  simp only [EStateM.bind]
  generalize x m1 = r1, y m2 = r2 at h hnext
  cases h with
  | ok h hm => exact hnext _ _ _ _ h hm rfl rfl
  | error hm => exact .error hm
  | excused h => exact .excused h

/-- A larger bound on the second side is passed less often. -/
theorem passed_of_bounds {f : Fault} {b1 b2 : Nat} (hb : τ.Bounds f b1 b2) {passed : Nat → Prop}
    (hpassed : ∀ {b b'}, b ≤ b' → passed b' → passed b) :
    (passed b1 ↔ passed b2) ∨ (passed b2 → passed b1) ∧ τ.excused f := by
  rcases hb with rfl | ⟨hle, hexcused⟩
  · exact .inl Iff.rfl
  · exact .inr ⟨hpassed hle, hexcused⟩

/-- The items of two arrays and the same new ones after them. -/
theorem pointwise_fillUp {xs : Array α} {ys : Array β} (h : Pointwise R xs ys) (size : Nat) {x : α} {y : β} (hx : R x y) :
    Pointwise R (fillUp xs size x) (fillUp ys size y) := by
  rw [fillUp, h.size_eq]
  exact h.append (.replicate _ hx)

theorem size_fillUp (xs : Array α) (size : Nat) (x : α) : (fillUp xs size x).size = max xs.size size := by
  rw [fillUp, Array.size_append, Array.size_replicate]
  omega

theorem mem_of_mem_fillUp {xs : Array α} {x y : α} (h : y ∈ fillUp xs n x) : y ∈ xs ∨ y = x := by
  rcases Array.mem_append.1 h with h | h
  · exact .inl h
  · exact .inr (Array.eq_of_mem_replicate h)

namespace Agree

theorem pure {a : α} {b : β} (h : R a b) : Agree τ s1 R (Pure.pure a) (Pure.pure b) :=
  fun _ _ hm => .ok h hm

theorem fault (f : Fault) : Agree τ s1 R (fault f) (fault f) :=
  fun _ _ hm => .error hm

theorem bind {x : Exec α} {y : Exec β} {f : α → Exec γ} {g : β → Exec δ} (hx : Agree τ s1 R x y)
    (hf : ∀ a b, R a b → Agree τ s1 R' (f a) (g b)) : Agree τ s1 R' (x >>= f) (y >>= g) :=
  fun m1 m2 hm => (hx m1 m2 hm).next fun a b _ _ hab hm _ _ => hf a b hab _ _ hm

/-- Goes on with what is the same on both sides. -/
theorem same {x y : Exec α} {P : α → Prop} {f : α → Exec γ} {g : α → Exec δ}
    (hx : Agree τ s1 (fun a b => a = b ∧ P a) x y) (hf : ∀ a, P a → Agree τ s1 R' (f a) (g a)) :
    Agree τ s1 R' (x >>= f) (y >>= g) := by
  refine hx.bind fun a b h => ?_
  obtain ⟨rfl, ha⟩ := h
  exact hf a ha

theorem discard {x : Exec α} {y : Exec β} (hx : Agree τ s1 R x y) : Agree τ s1 Eq (discard x) (discard y) := by
  exact hx.bind fun _ _ _ => pure rfl

theorem ite [Decidable p] {x x' : Exec α} {y y' : Exec β} (hx : Agree τ s1 R x y) (hx' : Agree τ s1 R x' y') :
    Agree τ s1 R (if p then x else x') (if p then y else y') := by
  split
  · exact hx
  · exact hx'

/-- Goes on unless a condition holds. -/
theorem failIf [Decidable p] {c : Fault} {f : Unit → Exec α} {g : Unit → Exec β} (h : ¬p → Agree τ s1 R (f ()) (g ())) :
    Agree τ s1 R (if p then Exec.fault c >>= f else f ()) (if p then Exec.fault c >>= g else g ()) := by
  split
  · exact fun _ _ hm => .error hm
  · next hp => exact h hp

/-- Goes on with what the machine holds. -/
theorem get {f : Machine → Exec α} {g : Machine → Exec β}
    (h : ∀ m1 m2, m1.Tied τ s1 m2 → Agree τ s1 R (f m1) (g m2)) :
    Agree τ s1 R (MonadState.get >>= f) (MonadState.get >>= g) :=
  fun m1 m2 hm => h m1 m2 hm m1 m2 hm

/-- Changes tied machines. -/
theorem change {f g : Machine → Machine}
    (h : ∀ m1 m2, m1.Tied τ s1 m2 → (f m1).Tied τ s1 (g m2)) : Agree τ s1 Eq (modify f) (modify g) :=
  fun m1 m2 hm => .ok rfl (h m1 m2 hm)

/-! ### The heap -/

theorem ofExcept {x : Except Fault α} {y : Except Fault β} (h : ScriptEngine.Agree τ R x y) :
    Agree τ s1 R (ofExcept x) (ofExcept y) := by
  cases h with
  | ok h => exact pure h
  | error _ => exact fault _
  | excused h => exact fun _ _ _ => .excused h

theorem onHeap {x : HeapM α} {y : HeapM β} (h : HeapM.Agree τ R x y) : Agree τ s1 R (onHeap x) (onHeap y) := by
  intro m1 m2 hm
  have h := h _ _ hm.heap.toTied
  simp only [Exec.onHeap, Exec.takeHeap]
  generalize x m1.heap = r1, y m2.heap = r2 at h
  cases h with
  | ok h hh => exact .ok h { hm with heap := hm.heap.after hh.tied hh.left hh.right }
  | error _ hh => exact .error { hm with heap := hm.heap.after hh.tied hh.left hh.right }
  | excused h => exact .excused h

theorem inspect {f : Heap → α} {g : Heap → β} (h : ∀ h1 h2, h1.Tied τ h2 → R (f h1) (g h2)) :
    Agree τ s1 R (inspect f) (inspect g) :=
  fun _ _ hm => .ok (h _ _ hm.heap.toTied) hm

theorem examine {f : Heap → Except Fault α} {g : Heap → Except Fault β}
    (h : ∀ h1 h2, h1.Tied τ h2 → ScriptEngine.Agree τ R (f h1) (g h2)) : Agree τ s1 R (examine f) (examine g) := by
  intro m1 m2 hm
  have h := h _ _ hm.heap.toTied
  simp only [Exec.examine]
  generalize f m1.heap = r1, g m2.heap = r2 at h
  cases h with
  | ok h => exact .ok h hm
  | error _ => exact .error hm
  | excused h => exact .excused h

theorem readCell (hcell : τ.law.cells cell) :
    Agree τ s1 (Value.Tied τ) (Exec.inspect (·.cell cell)) (Exec.inspect (·.cell cell)) := by
  intro m1 m2 hm
  exact .ok (Value.Corresponds.tied (hm.heap.contents.getD cell .undefined) (hm.heap.obeys.cell cell hcell)) hm

theorem writeCell (cell : Addr) (h : v.Tied τ w) :
    Agree τ s1 Eq (Exec.onHeap fun h => .ok () (h.setCell cell v)) (Exec.onHeap fun h => .ok () (h.setCell cell w)) :=
  fun _ _ hm => .ok rfl { hm with heap := { hm.heap with
    corresponds := { hm.heap.corresponds with }
    obeys := hm.heap.obeys.setCell cell h.obeys
    contents := hm.heap.contents.setIfInBounds cell h.corresponds } }

theorem newCell (h : v.Tied τ w) :
    Agree τ s1 (fun a b => a = b ∧ τ.law.cells a) (Exec.onHeap fun h => .ok (h.newCell v).1 (h.newCell v).2)
      (Exec.onHeap fun h => .ok (h.newCell w).1 (h.newCell w).2) :=
  fun _ _ hm => .ok ⟨hm.heap.contents.size_eq, hm.heap.obeys.newCell 0⟩ { hm with heap := { hm.heap with
    corresponds := { hm.heap.corresponds with }
    obeys := hm.heap.obeys.pushCell h.obeys
    contents := hm.heap.contents.push h.corresponds } }

theorem newFunction {f g : Function} (h : ∀ id, τ.function { f with id } { g with id := τ.ids id })
    (hlaw : ∀ id, τ.law.function { f with id }) :
    Agree τ s1 (Value.Tied τ) (Exec.onHeap (HeapM.function f)) (Exec.onHeap (HeapM.function g)) := by
  intro m1 m2 hm
  refine .ok ?_ { hm with heap := { hm.heap with
    corresponds := { hm.heap.corresponds with }, obeys := { hm.heap.obeys with }, newFunction := fun k => ?_ } }
  · have hid : τ.ids m1.heap.functions = m2.heap.functions := hm.heap.newFunction 0
    rw [← hid]
    exact .function (h _) (hlaw _)
  · have hlater := hm.heap.newFunction (1 + k)
    rwa [Nat.add_assoc, Nat.add_assoc]

theorem checkToken : Agree τ s1 Eq checkToken checkToken := by
  intro m1 m2 hm
  simp only [Exec.checkToken, hm.token]
  cases m1.token.check with
  | ok _ => exact .ok rfl hm
  | error f => exact .error hm

theorem alloc (hs : s1.Tied τ s2) : Agree τ s1 Eq alloc alloc := by
  intro m1 m2 hm
  obtain ⟨n, h1, h2⟩ := hm.allocs
  have hnext : ∀ {a x : Int}, Spent n a x → x ≠ 0 → Spent (n + 1) a (if 0 < x then x - 1 else x) := by
    intro a x h hx
    unfold Spent at h ⊢
    split <;> omega
  have halloc : ∀ m : Machine, Exec.alloc m = if m.allocs = 0 then .error (.failure { cause := .allocationLimit }) m
      else .ok () { m with allocs := if 0 < m.allocs then m.allocs - 1 else m.allocs } := by
    intro m
    rw [Exec.alloc]
    split
    · rfl
    · split <;> rfl
  have hzero : (m1.allocs = 0 ↔ m2.allocs = 0) ∨ (m2.allocs = 0 → m1.allocs = 0) ∧ τ.excused .allocationLimit := by
    unfold Spent at h1 h2
    rcases hs.allocs with heq | ⟨hmore, hexcused⟩
    · left
      omega
    · exact .inr ⟨by omega, hexcused⟩
  rw [halloc, halloc]
  refine .check hzero hm fun hsome => .ok rfl { hm with allocs := ⟨n + 1, hnext h1 hsome, hnext h2 ?_⟩ }
  rcases hzero with hiff | ⟨himp, -⟩
  · exact mt hiff.2 hsome
  · exact mt himp hsome

/-! ### The stack -/

theorem push (hs : s1.Tied τ s2) (h : v.Tied τ w) : Agree τ s1 Eq (push s1 v) (push s2 w) := by
  intro m1 m2 hm
  simp only [Exec.push, ← hm.stack.size_eq]
  refine .check (passed_of_bounds hs.stackSize Nat.le_trans) hm fun hroom =>
    .ok rfl { hm with stack := hm.stack.push h, room := ?_ }
  rw [Array.size_push]
  exact Nat.not_le.1 hroom

theorem pushAll (hs : s1.Tied τ s2) {vs ws : List Value} (h : List.Forall₂ (Value.Tied τ) vs ws) :
    Agree τ s1 Eq (pushAll s1 vs) (pushAll s2 ws) := by
  induction h with
  | nil => exact pure rfl
  | cons hv _ ih => exact (push hs hv).bind fun _ _ _ => ih

/-- Part of the stack. -/
theorem tied_stack (hm : m1.Tied τ s1 m2) (h : Pointwise (Value.Tied τ) xs ys) (hsize : xs.size ≤ m1.stack.size) :
    ({ m1 with stack := xs }).Tied τ s1 { m2 with stack := ys } :=
  { hm with stack := h, room := Nat.le_trans hsize hm.room }

theorem pop : Agree τ s1 (Value.Tied τ) pop pop := by
  intro m1 m2 hm
  have hback := hm.stack.back?
  simp only [Exec.pop]
  generalize m1.stack.back? = x, m2.stack.back? = y at hback
  cases hback with
  | none => exact .error hm
  | some h => exact .ok h (tied_stack hm hm.stack.pop (by simp))

theorem top : Agree τ s1 (Value.Tied τ) top top := by
  intro m1 m2 hm
  have hback := hm.stack.back?
  simp only [Exec.top]
  generalize m1.stack.back? = x, m2.stack.back? = y at hback
  cases hback with
  | none => exact .error hm
  | some h => exact .ok h hm

/-- Values of the stack, no more than fit there. -/
theorem popMany (n : Nat) : Agree τ s1 (fun xs ys => Pointwise (Value.Tied τ) xs ys ∧ xs.size = n ∧ n ≤ s1.config.stackSize)
    (popMany n) (popMany n) := by
  intro m1 m2 hm
  have hroom := hm.room
  simp only [Exec.popMany, ← hm.stack.size_eq]
  split
  · exact .error hm
  · refine .ok ⟨hm.stack.extract _ _, ?_, by omega⟩ (tied_stack hm (hm.stack.shrink _) (by simp))
    rw [Array.size_extract]
    omega

theorem popSelectors (n : Nat) : Agree τ s1 (fun x y => x.1.Tied τ y.1 ∧ List.Forall₂ (Value.Tied τ) x.2 y.2)
    (popSelectors n) (popSelectors n) :=
  (popMany n).bind fun _ _ hxs => pop.bind fun _ _ hv => pure ⟨hv, hxs.1⟩

theorem compute (hs : s1.Tied τ s2) (h : ∀ v w, v.Tied τ w → Agree τ s1 (Value.Tied τ) (f v) (g w)) :
    Agree τ s1 Eq (compute s1 f) (compute s2 g) :=
  pop.bind fun _ _ hv => (h _ _ hv).bind fun _ _ => push hs

theorem produce (hs : s1.Tied τ s2) (h : ∀ v w, v.Tied τ w → Agree τ s1 (Value.Tied τ) (f v) (g w)) :
    Agree τ s1 Eq (produce s1 f) (produce s2 g) :=
  pop.bind fun _ _ hv => (h _ _ hv).bind fun _ _ hw => (alloc hs).bind fun _ _ _ => push hs hw

/-! ### Frames and variables -/

theorem frame : Agree τ s1 (Frame.Tied τ) frame frame := by
  intro m1 m2 hm
  have hframes := hm.frames
  simp only [Exec.frame]
  generalize m1.frames = fs, m2.frames = gs at hframes
  cases hframes with
  | nil => exact .error hm
  | cons h _ => exact .ok h hm

/-- The place of a variable is one of the stack. -/
theorem localPlace (index : Nat) :
    Agree τ s1 (fun p q => p = q ∧ p < s1.config.stackSize) (localPlace index) (localPlace index) := by
  refine frame.bind fun f g hf => get fun m1 m2 hm => ?_
  rw [hf.base, ← hm.stack.size_eq]
  exact failIf fun hlt => pure ⟨rfl, Nat.lt_of_lt_of_le (Nat.not_le.1 hlt) hm.room⟩

theorem cellAt (place : Nat) : Agree τ s1 (CellsMatch τ) (cellAt place) (cellAt place) := by
  intro m1 m2 hm
  refine .ok ?_ hm
  have hcell := hm.cells.getElem? place
  generalize m1.cells[place]? = x, m2.cells[place]? = y at hcell
  cases hcell with
  | none => exact cellsMatch_none
  | some h => exact h

/-- The place of a variable, with its cell if it has one. -/
theorem atPlace (index : Nat) {f : Nat → Option Addr → Exec α} {g : Nat → Option Addr → Exec β}
    (hcell : ∀ place cell, place < s1.config.stackSize → τ.law.cells cell →
      Agree τ s1 R (f place (some cell)) (g place (some cell)))
    (hnone : ∀ place, place < s1.config.stackSize → Agree τ s1 R (f place none) (g place none)) :
    Agree τ s1 R (Exec.localPlace index >>= fun place => Exec.cellAt place >>= f place)
      (Exec.localPlace index >>= fun place => Exec.cellAt place >>= g place) := by
  refine (localPlace index).same fun place hplace => ?_
  refine (cellAt place).bind fun cell cell' hmatch => ?_
  obtain ⟨rfl, hlaw⟩ := hmatch
  cases cell' with
  | some cell => exact hcell place cell hplace (hlaw cell rfl)
  | none => exact hnone place hplace

/-- Values at the same place of two stacks. -/
theorem stackAt (hm : m1.Tied τ s1 m2) (place : Nat) :
    (m1.stack.getD place .undefined).Tied τ (m2.stack.getD place .undefined) := hm.stack.getD place .undefined

theorem getLocal (index : Nat) : Agree τ s1 (Value.Tied τ) (getLocal index) (getLocal index) :=
  atPlace index (fun _ _ _ hcell => readCell hcell) fun place _ => get fun _ _ hm => pure (stackAt hm place)

/-- A place of the stack is written to. -/
theorem tied_set (hm : m1.Tied τ s1 m2) (place : Nat) (h : v.Tied τ w) :
    ({ m1 with stack := m1.stack.setIfInBounds place v }).Tied τ s1
      { m2 with stack := m2.stack.setIfInBounds place w } :=
  tied_stack hm (hm.stack.setIfInBounds place h) (by simp)

theorem setLocal (index : Nat) (h : v.Tied τ w) : Agree τ s1 Eq (Exec.setLocal index v) (Exec.setLocal index w) :=
  atPlace index (fun _ cell _ _ => writeCell cell h) fun place _ => change fun _ _ hm => tied_set hm place h

theorem defineLocal (index : Nat) (h : v.Tied τ w) : Agree τ s1 Eq (defineLocal index v) (defineLocal index w) := by
  exact (localPlace index).same fun place _ => change fun _ _ hm => { tied_set hm place h with
    cells := hm.cells.setIfInBounds place cellsMatch_none
    places := Nat.le_trans (Nat.le_of_eq Array.size_setIfInBounds) hm.places }

theorem captureLocal (index : Nat) : Agree τ s1 (fun a b => a = b ∧ τ.law.cells a) (captureLocal index)
    (Exec.captureLocal index) := by
  refine atPlace index (fun _ _ _ hcell => pure ⟨rfl, hcell⟩) fun place hplace => get fun _ _ hm => ?_
  refine (newCell (stackAt hm place)).same fun cell hlaw => ?_
  refine (change fun _ _ hm => ?_).bind fun _ _ _ => pure ⟨rfl, hlaw⟩
  refine { hm with cells := ?_, places := ?_ }
  · refine Pointwise.setIfInBounds (pointwise_fillUp hm.cells _ cellsMatch_none) place ⟨rfl, fun a ha => ?_⟩
    cases ha
    exact hlaw
  · refine Nat.le_trans (Nat.le_of_eq Array.size_setIfInBounds) ?_
    rw [size_fillUp]
    exact Nat.max_le.2 ⟨hm.places, hplace⟩

theorem capture (hcell : τ.law.cells cell) : Agree τ s1 Eq (modify fun m => { m with captures := m.captures.push cell })
      (modify fun m => { m with captures := m.captures.push cell }) :=
  change fun _ _ hm => { hm with captures := hm.captures.push ⟨hcell, rfl⟩ }

theorem captured (hs : s1.Tied τ s2) (index : Nat) :
    Agree τ s1 (fun a b => a = b ∧ τ.law.cells a) (captured index) (captured index) := by
  refine frame.bind fun f g hf => ?_
  rw [hs.runs.captured hf.func]
  cases hcell : f.func.captured[index]? with
  | some cell => exact pure ⟨rfl, τ.law.captured f.func hf.code cell (Array.mem_of_getElem? hcell)⟩
  | none => exact fault _

theorem getGlobal (slot : Nat) : Agree τ s1 (Value.Tied τ) (getGlobal slot) (getGlobal slot) := by
  intro m1 m2 hm
  have hitem := hm.globals.getElem? slot
  simp only [Exec.getGlobal]
  generalize m1.globals[slot]? = x, m2.globals[slot]? = y at hitem
  cases hitem with
  | none => exact .error hm
  | some h => exact .ok h hm

theorem setGlobal (slot : Nat) (h : v.Tied τ w) : Agree τ s1 Eq (setGlobal slot v) (setGlobal slot w) := by
  intro m1 m2 hm
  simp only [Exec.setGlobal, ← hm.globals.size_eq]
  split
  · exact .ok rfl { hm with
      globals := hm.globals.setIfInBounds slot h, count := Array.size_setIfInBounds.trans hm.count }
  · exact .error hm

theorem assignPart {target target' v' : Value} {path path' : List Value} (htarget : target.Tied τ target')
    (hv : v.Tied τ v') (hpath : List.Forall₂ (Value.Tied τ) path path') :
    Agree τ s1 Eq (assignPart target v path) (assignPart target' v' path') := by
  cases hpath with
  | nil =>
    rw [Exec.assignPart, Exec.assignPart, htarget.typeName_eq]
    exact fault _
  | cons hlast hpath =>
    refine (examine fun h1 h2 hh => Value.agree_path hh (List.rel_reverse hpath) htarget).bind fun x y hx => ?_
    exact onHeap (Value.agree_set hx hlast hv)

end Agree

end Exec

end ScriptEngine
