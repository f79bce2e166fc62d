import ScriptEngine.Proofs.Code.Execution
import ScriptEngine.Proofs.Expression.Evaluator
/-!
# When code yields what an evaluation gives

The code of an expression does on a machine what the evaluator does on the heap, and leaves the value
on the stack. `Yields` says so for outcomes: the machine works with the heap and with values above its
stack, and either both go on or both fail for the same reason. The evaluator knows no stack, so the
machine may also find its stack full, unless there is room enough. The lemmas here follow the monads
and the instructions.
-/

namespace ScriptEngine

open Exec Exit Code

variable {b : Code} {h : Heap} {y : HeapM Value} {vs : List Value} {m : Machine} {fuel : Nat} {pos : Pos}
  {full : Prop} {s : Setting} {α β γ δ : Type} {f : Value → Exec Value}

variable {m0 : Machine} {i : Nat} {v : Value}

/-- The machine with a heap and with more values on its stack, the topmost first. -/
def Machine.working (m : Machine) (h : Heap) (vs : List Value) : Machine :=
  { m with heap := h, stack := m.stack ++ vs.reverse.toArray }

/-- The outcome of an execution that found the stack full. -/
def Overflows (r : EStateM.Result Halt Machine β) : Prop :=
  ∃ m, r = .error (.failure { cause := .stackOverflow }) m

/-- There is room for `n` values above the stack of a machine, unless it may be full. -/
def HasRoom (s : Setting) (full : Prop) (m : Machine) (n : Nat) : Prop :=
  s.config.stackSize < m.stack.size + n → full

theorem HasRoom.fewer {n k : Nat} (h : HasRoom s full m n) (hle : k ≤ n) :
    HasRoom s full m k := fun hlt => h (Nat.lt_of_lt_of_le hlt (Nat.add_le_add_left hle _))

/-- How machines show the states of an evaluation: with values above the stack, and after a failure. -/
structure View (ε σ : Type) where
  shows : σ → List Value → Machine
  fails : ε → σ → Halt → Machine → Prop

/-- The outcome of an execution is that of an evaluation: after `land a` for a result `a` the machine
gives a result and has values above its stack. -/
def Conforms (V : View ε σ) (full : Prop) (land : α → β × List Value) (r : EStateM.Result Halt Machine β) :
    EStateM.Result ε σ α → Prop
  | .ok a w => r = .ok (land a).1 (V.shows w (land a).2) ∨ full ∧ Overflows r
  | .error e w => (∃ halt m, r = .error halt m ∧ V.fails e w halt m) ∨ full ∧ Overflows r

namespace Conforms

variable {ε σ : Type} {V : View ε σ} {w : σ}

theorem ofOverflows {land : α → β × List Value} {r : EStateM.Result Halt Machine β}
    (hfull : full ∧ Overflows r) (x : EStateM.Result ε σ α) : Conforms V full land r x := by
  cases x <;> exact .inr hfull

theorem overflows_bind {y : Exec β} (hfull : Overflows (y m0)) (g : β → Exec δ) : Overflows ((y >>= g) m0) := by
  obtain ⟨m', hfull⟩ := hfull
  exact ⟨m', bind_error hfull⟩

/-- Both go on. -/
theorem bind {land1 : α → β × List Value} {land2 : γ → δ × List Value} {y : Exec β} {g : β → Exec δ}
    {x : EStateM ε σ α} {f : α → EStateM ε σ γ} (hx : Conforms V full land1 (y m0) (x w)) (hf : ∀ a w', x w = .ok a w' →
      Conforms V full land2 (g (land1 a).1 (V.shows w' (land1 a).2)) (f a w')) :
    Conforms V full land2 ((y >>= g) m0) ((x >>= f) w) := by
  show Conforms V full land2 _ (EStateM.bind x f w)
  rw [EStateM.bind]
  cases hxw : x w with
  | ok a w' =>
    rw [hxw] at hx
    rcases hx with hok | ⟨hfull, hover⟩
    · rw [bind_ok hok]
      exact hf a w' hxw
    · exact ofOverflows ⟨hfull, overflows_bind hover g⟩ _
  | error e w' =>
    rw [hxw] at hx
    rcases hx with ⟨halt, m, herror, hfails⟩ | ⟨hfull, hover⟩
    · exact .inl ⟨halt, m, bind_error herror, hfails⟩
    · exact .inr ⟨hfull, overflows_bind hover g⟩

/-- The machine goes on alone. -/
theorem andAlso {land1 : α → β × List Value} {land2 : α → δ × List Value} {y : Exec β} {g : β → Exec δ}
    {r : EStateM.Result ε σ α} (hx : Conforms V full land1 (y m0) r)
    (hg : ∀ a w, Conforms V full land2 (g (land1 a).1 (V.shows w (land1 a).2)) (.ok a w)) :
    Conforms V full land2 ((y >>= g) m0) r := by
  cases r with
  | ok a w | error e w => exact bind hx fun a w' _ => hg a w'

/-- The machine goes on alone with what the evaluation knows nothing of. -/
theorem silently {land : α → δ × List Value} {y : Exec β} {g : β → Exec δ} {b : β} {m1 : Machine}
    {r : EStateM.Result ε σ α} (hy : y m0 = .ok b m1) (hrest : Conforms V full land (g b m1) r) :
    Conforms V full land ((y >>= g) m0) r := by
  rw [bind_ok hy]
  exact hrest

/-- The evaluation goes on alone with what the machine knows nothing of. -/
theorem mapped {land1 : α → β × List Value} {land2 : γ → β × List Value} {r : EStateM.Result Halt Machine β}
    {x : EStateM ε σ α} {f : α → γ} (hx : Conforms V full land1 r (x w)) (hland : ∀ a, land2 (f a) = land1 a) :
    Conforms V full land2 r ((x >>= fun a => pure (f a)) w) := by
  show Conforms V full _ r (EStateM.bind x _ w)
  rw [EStateM.bind]
  cases hxw : x w with
  | ok a w' =>
    rw [hxw] at hx
    show r = _ ∨ _
    rw [hland]
    exact hx
  | error e w' =>
    rw [hxw] at hx
    exact hx

variable {a : Code}

theorem instr {land : α → List Value} {op : Opcode} {operands : List Nat} {r : EStateM.Result ε σ α}
    (hplain : Conforms V full (fun a => (Flow.goOn, land a)) (plain s ⟨0, op, operands⟩ m0) r) :
    Conforms V full (fun a => (next, land a)) ((instr pos op operands).exec s fuel m0) r :=
  hplain.andAlso fun _ _ => .inl rfl

/-- Code after code that always ends normally. -/
theorem seq {land1 : α → List Value} {land2 : γ → Exit × List Value} {x : EStateM ε σ α} {f : α → EStateM ε σ γ}
    (ha : Conforms V full (fun a => (next, land1 a)) (a.exec s fuel m0) (x w))
    (hb : ∀ a w', x w = .ok a w' → Conforms V full land2 (b.exec s fuel (V.shows w' (land1 a))) (f a w')) :
    Conforms V full land2 ((a.seq b).exec s fuel m0) ((x >>= f) w) := ha.bind hb

end Conforms

/-- The states of the evaluator are heaps. -/
@[reducible]
def Machine.heapView (m : Machine) : View Fault Heap where
  shows := m.working
  fails f h halt m' := halt = .failure { cause := f } ∧ ∃ vs, m' = m.working h vs

/-- The outcome of an execution is that of an evaluation on the heap. -/
abbrev Yields (full : Prop) (m : Machine) (land : α → β × List Value) (r : EStateM.Result Halt Machine β)
    (x : EStateM.Result Fault Heap α) : Prop :=
  Conforms m.heapView full land r x

namespace Yields

open Conforms

theorem failed {land : α → β × List Value} {f : Fault} {r : EStateM.Result Halt Machine β}
    (hr : r = .error (.failure { cause := f }) (m.working h vs)) : Yields full m land r (.error f h) :=
  .inl ⟨_, _, hr, rfl, vs, rfl⟩

/-! ### Parts of instructions -/

theorem working_cons (v : Value) :
    m.working h (v :: vs) = { m.working h vs with stack := (m.working h vs).stack.push v } := by
  simp [Machine.working]

theorem size_working : (m.working h vs).stack.size = m.stack.size + vs.length := by
  simp [Machine.working]

theorem pop_working (v : Value) : pop (m.working h (v :: vs)) = .ok v (m.working h vs) := by
  rw [working_cons, pop]
  simp

theorem top_working (v : Value) : top (m.working h (v :: vs)) = .ok v (m.working h (v :: vs)) := by
  rw [working_cons, top]
  simp

theorem popMany_working (items : List Value) :
    popMany items.length (m.working h (items.reverse ++ vs)) = .ok items.toArray (m.working h vs) := by
  have happend : m.working h (items.reverse ++ vs) =
      { m.working h vs with stack := (m.working h vs).stack ++ items.toArray } := by simp [Machine.working]
  rw [happend, popMany]
  simp

theorem alloc_working (hfree : m.allocs = -1) : alloc (m.working h vs) = .ok () (m.working h vs) := by
  simp [alloc, Machine.working, hfree]

theorem push (hroom : HasRoom s full m (vs.length + 1)) (v : Value) :
    Yields full m (fun _ : Unit => ((), v :: vs)) (Exec.push s v (m.working h vs)) (.ok () h) := by
  by_cases hfull : s.config.stackSize ≤ (m.working h vs).stack.size
  · refine .inr ⟨hroom ?_, m.working h vs, ?_⟩
    · rw [size_working] at hfull
      exact Nat.lt_succ_of_le hfull
    · rw [Exec.push, if_pos hfull]
  · left
    show Exec.push s v (m.working h vs) = .ok () (m.working h (v :: vs))
    rw [Exec.push, if_neg hfull, working_cons]

theorem onHeap (op : HeapM α) : Yields full m (fun a => (a, vs)) (Exec.onHeap op (m.working h vs)) (op h) := by
  have hheap : (m.working h vs).heap = h := rfl
  simp only [Exec.onHeap, takeHeap, hheap]
  cases op h with
  | ok a h => exact .inl rfl
  | error f h => exact failed rfl

theorem examine (f : Heap → Except Fault α) :
    Yields full m (fun a => (a, vs)) (Exec.examine f (m.working h vs)) (HeapM.read f h) := by
  have hheap : (m.working h vs).heap = h := rfl
  simp only [Exec.examine, HeapM.read, hheap]
  cases f h with
  | ok a => exact .inl rfl
  | error f => exact failed rfl

theorem inspect (f : Heap → α) :
    Yields full m (fun a => (a, vs)) (Exec.inspect f (m.working h vs)) (.ok (f h) h) := .inl rfl

theorem ofExcept (r : Except Fault α) :
    Yields full m (fun a => (a, vs)) (Exec.ofExcept r (m.working h vs)) (HeapM.ofExcept r h) := by
  cases r with
  | ok a => exact .inl rfl
  | error f => exact failed rfl

/-! ### Instructions -/

/-- The end of an instruction that leaves a value. -/
theorem pushed (hroom : HasRoom s full m (vs.length + 1)) {value : α → Value} (a : α) :
    Yields full m (fun a => (Flow.goOn, value a :: vs))
      ((do Exec.push s (value a); return Flow.goOn) (m.working h vs)) (.ok a h) :=
  (push hroom (value a)).bind (f := fun _ => pure a) fun _ _ _ => .inl rfl

/-- The end of an instruction that leaves a value and counts it. -/
theorem counted (hfree : m.allocs = -1) (hroom : HasRoom s full m (vs.length + 1)) {value : α → Value} (a : α) :
    Yields full m (fun a => (Flow.goOn, value a :: vs))
      ((do alloc; Exec.push s (value a); return Flow.goOn) (m.working h vs)) (.ok a h) :=
  silently (alloc_working hfree) (pushed hroom a)

theorem compute (hroom : HasRoom s full m (vs.length + 1)) {value : α → Value} {r : EStateM.Result Fault Heap α}
    (hf : Yields full m (fun a => (value a, vs)) (f v (m.working h vs)) r) :
    Yields full m (fun a => (Flow.goOn, value a :: vs))
      ((do Exec.compute s f; return Flow.goOn) (m.working h (v :: vs))) r := by
  rw [Exec.compute, bind_assoc]
  refine silently (pop_working v) ?_
  rw [bind_assoc]
  exact hf.andAlso fun a h' => pushed hroom a

theorem produce (hfree : m.allocs = -1) (hroom : HasRoom s full m (vs.length + 1))
    {r : EStateM.Result Fault Heap Value} (hf : Yields full m (fun a => (a, vs)) (f v (m.working h vs)) r) :
    Yields full m (fun a => (Flow.goOn, a :: vs))
      ((do Exec.produce s f; return Flow.goOn) (m.working h (v :: vs))) r := by
  rw [Exec.produce, bind_assoc]
  refine silently (pop_working v) ?_
  rw [bind_assoc]
  refine hf.andAlso fun a h' => ?_
  rw [bind_assoc]
  exact counted hfree hroom a

end Yields

/-! ### Instructions

What each instruction on values does, in the words of the evaluator. -/

section Instructions

variable (hfree : m.allocs = -1) (hroom : HasRoom s full m (vs.length + 1))

open Conforms
open Yields hiding onHeap examine ofExcept inspect push compute produce

/-- The keys and values of entries, as they lie on the stack. -/
def entryValues (es : List (String × Value)) : List Value := es.flatMap fun e => [.string e.1, e.2]

theorem pairUp_entryValues (h : Heap) (es : List (String × Value)) (d : Dict Value) :
    pairUp h (entryValues es) d = es.foldl (fun d e => d.insert e.1 e.2) d := by
  induction es generalizing d with
  | nil => rfl
  | cons e es ih => exact ih _

theorem length_entryValues (es : List (String × Value)) : (entryValues es).length = es.length * 2 := by
  induction es with
  | nil => rfl
  | cons e es ih =>
    show (entryValues es).length + 1 + 1 = (es.length + 1) * 2
    omega

include hroom

theorem yields_const (hconst : s.program.constants[i]? = some v) :
    Yields full m (fun v => (next, v :: vs)) ((instr pos .const [i]).exec s fuel (m.working h vs))
      (.ok v h) := by
  refine instr ?_
  have hplain : plain s ⟨0, .const, [i]⟩ = (do Exec.push s v; return Flow.goOn) := by
    simp only [plain, execute, Instruction.first, List.headD_cons, hconst]
  rw [hplain]
  exact pushed hroom v

theorem yields_getBuiltin {b : Builtin} (hbuiltin : Builtin.all[i]? = some b) :
    Yields full m (fun v => (next, v :: vs)) ((instr pos .getBuiltin [i]).exec s fuel (m.working h vs))
      (.ok (.native (.builtin b)) h) := by
  refine instr ?_
  have hplain : plain s ⟨0, .getBuiltin, [i]⟩ = (do Exec.push s (.native (.builtin b)); return Flow.goOn) := by
    simp only [plain, execute, Instruction.first, List.headD_cons, hbuiltin]
  rw [hplain]
  exact pushed hroom _

theorem yields_index (v key : Value) :
    Yields full m (fun v => (next, v :: vs))
      ((instr pos .index []).exec s fuel (m.working h (key :: v :: vs)))
      (HeapM.read (fun h => v.get h key) h) := by
  refine instr (silently (pop_working key) (silently (pop_working v) ?_))
  exact (Yields.examine _).andAlso fun v h' => pushed hroom v

theorem yields_iterNext (v : Value) :
    Yields full m (fun b => (next, Value.bool b :: vs))
      ((instr pos .iterNext []).exec s fuel (m.working h (v :: vs))) (v.advance h) := by
  refine instr (Yields.compute hroom ?_)
  exact (Yields.onHeap v.advance).andAlso fun b h' => .inl rfl

include hfree

theorem yields_binary (op : Operator) (x y : Value) :
    Yields full m (fun v => (next, v :: vs))
      ((instr pos .binary [op.code]).exec s fuel (m.working h (y :: x :: vs)))
      (x.binary s.limits op y h) := by
  refine instr ?_
  have hcode : Operator.ofCode? op.code = some op := by cases op <;> rfl
  have hplain : plain s ⟨0, .binary, [op.code]⟩ = (do
      let rhs ← pop
      let lhs ← pop
      let v ← Exec.onHeap (lhs.binary s.limits op rhs)
      alloc
      Exec.push s v
      return Flow.goOn) := by
    simp only [plain, execute, Instruction.first, List.headD_cons, hcode]
  rw [hplain]
  refine silently (pop_working y) (silently (pop_working x) ?_)
  exact (Yields.onHeap _).andAlso fun v h' => counted hfree hroom v

theorem yields_array (items : List Value) :
    Yields full m (fun v => (next, v :: vs))
      ((instr pos .array [items.length]).exec s fuel (m.working h (items.reverse ++ vs)))
      ((do
        HeapM.ofExcept (s.limits.checkArray items.length)
        HeapM.array items.toArray) h) := by
  refine instr ?_
  refine (Yields.ofExcept (s.limits.checkArray items.length)).bind fun _ h' _ => ?_
  refine silently (popMany_working items) (silently (alloc_working hfree) ?_)
  exact (Yields.onHeap _).andAlso fun v h' => pushed hroom v

theorem yields_map (es : List (String × Value)) :
    Yields full m (fun v => (next, v :: vs))
      ((instr pos .map [es.length * 2]).exec s fuel (m.working h ((entryValues es).reverse ++ vs)))
      (HeapM.map (es.foldl (fun d e => d.insert e.1 e.2) {}) h) := by
  rw [← length_entryValues, ← pairUp_entryValues h]
  refine instr (silently (popMany_working (entryValues es)) ?_)
  refine silently rfl (silently (alloc_working hfree) ?_)
  exact (Yields.onHeap _).andAlso fun v h' => pushed hroom v

end Instructions

/-! ### Code -/

namespace Yields

open Conforms

/-- Code after a constant that the evaluator knows. -/
theorem constThen {land : α → Exit × List Value} {r : EStateM.Result Fault Heap α}
    (hroom : HasRoom s full m (vs.length + 1)) (hconst : s.program.constants[i]? = some v)
    (hb : Yields full m land (b.exec s fuel (m.working h (v :: vs))) r) :
    Yields full m land (((Code.instr pos .const [i]).seq b).exec s fuel (m.working h vs)) r := by
  have hpushed : Yields full m (fun v => (next, v :: vs))
      ((Code.instr pos .const [i]).exec s fuel (m.working h vs)) (.ok v h) := yields_const hroom hconst
  rcases hpushed with hok | ⟨hfull, hover⟩
  · exact silently hok hb
  · exact ofOverflows ⟨hfull, overflows_bind hover _⟩ r

theorem enters_onFalsy (v : Value) :
    Branch.onFalsy.enters (m.working h (v :: vs)) = .ok (!v.isFalsy h) (m.working h vs) :=
  bind_ok (pop_working v)

theorem enters_logicalAnd (v : Value) :
    Branch.logicalAnd.enters (m.working h (v :: vs)) =
      if v.isFalsy h then .ok false (m.working h (v :: vs)) else .ok true (m.working h vs) := by
  refine (bind_ok (top_working v)).trans ((bind_ok rfl).trans ?_)
  show (if v.isFalsy h then _ else _ : Exec Bool) _ = _
  cases v.isFalsy h with
  | true => rfl
  | false => exact bind_ok (discard_ok (pop_working v))

theorem enters_logicalOr (v : Value) :
    Branch.logicalOr.enters (m.working h (v :: vs)) =
      if v.isFalsy h then .ok true (m.working h vs) else .ok false (m.working h (v :: vs)) := by
  refine (bind_ok (top_working v)).trans ((bind_ok rfl).trans ?_)
  show (if v.isFalsy h then _ else _ : Exec Bool) _ = _
  cases v.isFalsy h with
  | true => exact bind_ok (discard_ok (pop_working v))
  | false => rfl

/-- A choice that takes a value off the stack. -/
theorem choice {land : α → Exit × List Value} {yes no : Exec Exit} {x y : HeapM α}
    (hyes : Yields full m land (yes (m.working h vs)) (x h))
    (hno : Yields full m land (no (m.working h vs)) (y h)) :
    Yields full m land ((do if ← Branch.onFalsy.enters then yes else no) (m.working h (v :: vs)))
      ((do if v.isFalsy (← get) then y else x) h) := by
  refine silently (enters_onFalsy v) ?_
  show Yields full m land _ ((if v.isFalsy h then y else x) h)
  cases v.isFalsy h with
  | true => exact hno
  | false => exact hyes

variable (hb : Yields full m (fun v => (next, v :: vs)) (b.exec s fuel (m.working h vs)) (y h))
include hb

theorem skipAnd :
    Yields full m (fun v => (next, v :: vs))
      ((skip pos .logicalAnd b).exec s fuel (m.working h (v :: vs)))
      ((do if v.isFalsy (← get) then return v else y) h) := by
  show Yields full m _ _ ((if v.isFalsy h then pure v else y) h)
  have henters : Branch.logicalAnd.enters (m.working h (v :: vs)) = _ := enters_logicalAnd v
  cases hfalsy : v.isFalsy h with
  | true =>
    rw [hfalsy] at henters
    exact silently henters (.inl rfl)
  | false =>
    rw [hfalsy] at henters
    exact silently henters hb

theorem skipOr :
    Yields full m (fun v => (next, v :: vs))
      ((skip pos .logicalOr b).exec s fuel (m.working h (v :: vs)))
      ((do if v.isFalsy (← get) then y else return v) h) := by
  show Yields full m _ _ ((if v.isFalsy h then y else pure v) h)
  have henters : Branch.logicalOr.enters (m.working h (v :: vs)) = _ := enters_logicalOr v
  cases hfalsy : v.isFalsy h with
  | true =>
    rw [hfalsy] at henters
    exact silently henters hb
  | false =>
    rw [hfalsy] at henters
    exact silently henters (.inl rfl)

end Yields

end ScriptEngine
