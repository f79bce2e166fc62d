import ScriptEngine.Proofs.Expression.Outcome
import ScriptEngine.Proofs.Semantics.Interpreter
/-!
# When code agrees with an interpretation

The code of a statement does on a machine what the interpreter does in its world. `Agrees` says so for
outcomes: a machine holds the world and values above its stack, and either both go on or both fail for
the same reason. The interpreter knows no stack, so the machine may also find its stack full. The
lemmas here follow the monads and the instructions; what code yields on the heap carries over.
-/

namespace ScriptEngine

open Exec

variable {y' z : Exec Exit} {vs : List Value} {m m0 : Machine} {fuel : Nat} {pos : Pos} {s : Setting} {α β γ : Type}
  {v : Value}

variable {slot : Nat} {slots : Nat}

/-- The machine with the variables of a world. -/
def Machine.withGlobals (m : Machine) (w : World slots) : Machine := { m with globals := w.globals.toArray }

/-- The machine with the variables and the heap of a world, and with more values on its stack, the
topmost first. -/
def Machine.holding (m : Machine) (w : World slots) (vs : List Value) : Machine :=
  (m.withGlobals w).working w.heap vs

/-- The states of the interpreter are worlds. -/
@[reducible]
def Machine.worldView (m : Machine) : View Stop (World slots) where
  shows := m.holding
  fails
    | .fault f, w, halt, m' => halt = .failure { cause := f } ∧ m'.globals = w.globals.toArray ∧ m'.heap = w.heap
    | .outOfFuel, _, halt, _ => halt = .outOfFuel

/-- The outcome of an execution agrees with that of an interpretation. -/
abbrev Agrees (m : Machine) (land : α → β × List Value) (r : EStateM.Result Halt Machine β)
    (x : EStateM.Result Stop (World slots) α) : Prop :=
  Conforms m.worldView True land r x

namespace Agrees

open Conforms

variable {δ : Type} {w : World slots}

/-- What code yields on the heap. -/
theorem ofYields {land : α → β × List Value} {r : EStateM.Result Halt Machine β} {x : HeapM α}
    (h : Yields True (m.withGlobals w) land r (x w.heap)) : Agrees m land r (Eval.onHeap x w) := by
  rw [Eval.onHeap]
  cases hx : x w.heap with
  | ok a heap =>
    rw [hx] at h
    exact h
  | error f heap =>
    rw [hx] at h
    refine h.imp_left ?_
    rintro ⟨_, _, rfl, rfl, vs, rfl⟩
    exact ⟨_, _, rfl, rfl, rfl, rfl⟩

/-! ### Parts of instructions -/

theorem pop_holding (v : Value) : pop (m.holding w (v :: vs)) = .ok v (m.holding w vs) := Yields.pop_working v

theorem getGlobal (hslot : slot < slots) :
    Exec.getGlobal slot (m.holding w vs) = .ok (w.globals[slot]?.getD .undefined) (m.holding w vs) := by
  have hget : (m.holding w vs).globals[slot]? = some (w.globals[slot]?.getD .undefined) := by
    simp [Machine.holding, Machine.withGlobals, Machine.working, hslot]
  rw [Exec.getGlobal, hget]

theorem setGlobal (hslot : slot < slots) (v : Value) :
    Exec.setGlobal slot v (m.holding w vs) =
      .ok () (m.holding { w with globals := w.globals.setIfInBounds slot v } vs) := by
  have hsize : (m.holding w vs).globals.size = slots := w.globals.size_toArray
  rw [Exec.setGlobal, if_pos (Nat.lt_of_lt_of_eq hslot hsize.symm)]
  rfl

end Agrees

/-! ### Instructions

What each instruction of a program without functions does, in the words of the interpreter. -/

section Instructions

variable {w : World slots}

open Conforms
open Agrees hiding getGlobal setGlobal

theorem agrees_pop (v : Value) :
    Agrees m (fun _ : Unit => (Exit.next, vs)) ((Code.instr pos .pop []).exec s fuel (m.holding w (v :: vs)))
      (.ok () w) :=
  instr (silently (discard_ok (pop_holding v)) (.inl rfl))

theorem agrees_binary (hfree : m.allocs = -1) (op : Operator) (x y : Value) :
    Agrees m (fun v => (Exit.next, v :: vs))
      ((Code.instr pos .binary [op.code]).exec s fuel (m.holding w (y :: x :: vs)))
      (Eval.onHeap (x.binary s.limits op y) w) :=
  ofYields (yields_binary (m := m.withGlobals w) hfree (fun _ => trivial) op x y)

theorem agrees_getGlobal (hslot : slot < slots) :
    Agrees m (fun v => (Exit.next, v :: vs)) ((Code.instr pos .getGlobal [slot]).exec s fuel (m.holding w vs))
      (Eval.load slot w) := by
  exact instr (silently (Agrees.getGlobal hslot) (ofYields (Yields.pushed (fun _ => trivial) _)))

theorem agrees_setGlobal (hslot : slot < slots) (v : Value) :
    Agrees m (fun _ : Unit => (Exit.next, vs))
      ((Code.instr pos .setGlobal [slot]).exec s fuel (m.holding w (v :: vs))) (Eval.store slot v w) :=
  instr (silently (pop_holding v) (silently (Agrees.setGlobal hslot v) (.inl rfl)))

theorem part_eq_foldlM (h : Heap) (v : Value) (path : List Value) :
    v.part h path = path.reverse.foldlM (fun v key => v.get h key) v := by
  induction path with
  | nil => rfl
  | cons key path ih =>
    rw [Value.part, ih]
    simp

theorem agrees_setSelGlobal (hslot : slot < slots) (v : Value) {path : List Value} (hne : path ≠ []) :
    Agrees m (fun _ : Unit => (Exit.next, vs))
      ((Code.instr pos .setSelGlobal [slot, path.length]).exec s fuel (m.holding w (path.reverse ++ v :: vs)))
      (Eval.assign slot v path w) := by
  obtain ⟨last, path, rfl⟩ := List.exists_cons_of_ne_nil hne
  refine instr ?_
  have hselectors : popSelectors (last :: path).length (m.holding w ((last :: path).reverse ++ v :: vs)) =
      .ok (v, last :: path) (m.holding w vs) := by
    rw [popSelectors, Machine.holding, bind_ok (Yields.popMany_working _), bind_ok (Yields.pop_working v)]
    rfl
  refine silently hselectors (silently (Agrees.getGlobal hslot) ?_)
  have hpart t : Agrees m (fun a : Unit => (a, vs)) (assignPart t v (last :: path) (m.holding w vs))
      ((do
        let holder ← Eval.onHeap (HeapM.read fun h => t.part h path)
        Eval.onHeap (holder.set last v)) w) := by
    simp only [part_eq_foldlM]
    exact (ofYields (Yields.examine _)).bind fun holder w' _ =>
      ofYields (Yields.onHeap _)
  exact (hpart _).andAlso fun _ w' => .inl rfl

theorem agrees_iterInit (hfree : m.allocs = -1) (v : Value) :
    Agrees m (fun v => (Exit.next, v :: vs))
      ((Code.instr pos .iterInit []).exec s fuel (m.holding w (v :: vs))) (Eval.onHeap v.iterate w) :=
  ofYields (instr (Yields.produce (m := m.withGlobals w) hfree (fun _ => trivial) (Yields.onHeap _)))

theorem agrees_iterNext (v : Value) :
    Agrees m (fun b => (Exit.next, Value.bool b :: vs))
      ((Code.instr pos .iterNext []).exec s fuel (m.holding w (v :: vs))) (Eval.onHeap v.advance w) :=
  ofYields (yields_iterNext (fun _ => trivial) v)

theorem agrees_iterKey (v : Value) :
    Agrees m (fun v => (Exit.next, v :: vs))
      ((Code.instr pos .iterKey []).exec s fuel (m.holding w (v :: vs)))
      (Eval.onHeap (HeapM.read fun h => v.iteratorKey h) w) :=
  ofYields (instr (Yields.compute (fun _ => trivial) (Yields.examine _)))

theorem agrees_iterValue (v : Value) :
    Agrees m (fun v => (Exit.next, v :: vs))
      ((Code.instr pos .iterValue []).exec s fuel (m.holding w (v :: vs)))
      (Eval.onHeap (HeapM.read fun h => v.iteratorValue h) w) :=
  ofYields (instr (Yields.compute (fun _ => trivial) (Yields.examine _)))

end Instructions

/-! ### Code -/

namespace Agrees

variable {w : World slots} {a b c : Code}

open Conforms

/-- Statements in turn. -/
theorem andThen {x y : Eval slots Exit} (hx : Agrees m (fun e => (e, vs)) (z m0) (x w))
    (hy : ∀ w', Agrees m (fun e => (e, vs)) (y' (m.holding w' vs)) (y w')) :
    Agrees m (fun e => (e, vs)) (Exit.andThen z y' m0) (Exit.andThen x y w) := by
  refine hx.bind fun e w' _ => ?_
  cases e with
  | next => exact hy w'
  | broke | continued => exact .inl rfl

/-- The body of a loop and what comes after it. -/
theorem thenAgain {x y : Eval slots Exit} (hx : Agrees m (fun e => (e, vs)) (z m0) (x w))
    (hy : ∀ w', Agrees m (fun e => (e, vs)) (y' (m.holding w' vs)) (y w')) :
    Agrees m (fun e => (e, vs)) (Exit.thenAgain z y' m0) (Exit.thenAgain x y w) := by
  refine hx.bind fun e w' _ => ?_
  cases e with
  | broke => exact .inl rfl
  | next | continued => exact hy w'

/-- A choice that takes a value off the stack. -/
theorem choice {land : α → Exit × List Value} {yes no : Exec Exit} {x y : Eval slots α}
    (hyes : Agrees m land (yes (m.holding w vs)) (x w)) (hno : Agrees m land (no (m.holding w vs)) (y w)) :
    Agrees m land ((do if ← Branch.onFalsy.enters then yes else no) (m.holding w (v :: vs)))
      ((do if ← Eval.inspect v.isFalsy then y else x) w) := by
  refine silently (Yields.enters_onFalsy v) ?_
  show Agrees m land _ ((if v.isFalsy w.heap then y else x) w)
  cases v.isFalsy w.heap with
  | true => exact hno
  | false => exact hyes

/-- A loop goes on or ends. -/
theorem proceed {k : Exec Exit} {k' : Eval slots Exit} (hk : Agrees m (fun e => (e, vs)) (k (m.holding w vs)) (k' w)) :
    Agrees m (fun e => (e, vs)) ((do if ← Branch.onFalsy.enters then k else return .next) (m.holding w (v :: vs)))
      ((do if ← Eval.inspect v.isFalsy then return Exit.next else k') w) :=
  choice hk (.inl rfl)

/-- What follows a statement that never ends normally is not run. -/
theorem thenNothing {r : EStateM.Result Halt Machine Exit} {x y : Eval slots Exit}
    (h : Agrees m (fun e => (e, vs)) r (x w)) (hne : ∀ w', x w ≠ .ok .next w') :
    Agrees m (fun e => (e, vs)) r (Exit.andThen x y w) := by
  show Agrees m _ r (EStateM.bind x _ w)
  rw [EStateM.bind]
  cases hx : x w with
  | ok e w' =>
    rw [hx] at h hne
    cases e with
    | next => exact absurd rfl (hne w')
    | broke | continued => exact h
  | error e w' =>
    rw [hx] at h
    exact h

/-- The rounds of a loop, given that its test agrees whatever comes next. -/
theorem rounds {head : Exec Exit} {tests : Bool} {body post : Exec Exit} {test : Eval slots Bool}
    {x y : Eval slots Exit} (htest : ∀ {k : Exec Exit} {k' : Eval slots Exit},
      (∀ w, Agrees m (fun e => (e, vs)) (k (m.holding w vs)) (k' w)) → ∀ w,
        Agrees m (fun e => (e, vs)) (Exit.andThen head (tested tests k) (m.holding w vs))
          ((do if ← test then k' else return .next) w))
    (hbody : ∀ w, Agrees m (fun e => (e, vs)) (body (m.holding w vs)) (x w))
    (hpost : ∀ w, Agrees m (fun e => (e, vs)) (post (m.holding w vs)) (y w)) (n : Nat) (w : World slots) :
    Agrees m (fun e => (e, vs)) (ScriptEngine.rounds head tests body post n (m.holding w vs))
      (Eval.rounds test x y n w) := by
  induction n generalizing w with
  | zero => exact .inl ⟨_, _, rfl, rfl⟩
  | succ n ih =>
    refine htest (fun w1 => ?_) w
    exact (hbody w1).thenAgain fun w2 => (hpost w2).andThen ih

end Agrees

end ScriptEngine
