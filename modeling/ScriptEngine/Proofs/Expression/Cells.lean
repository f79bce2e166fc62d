import ScriptEngine.Proofs.Expression.Evaluator
import ScriptEngine.Proofs.Value.Effects
/-!
# An evaluation leaves captured variables alone

The evaluator of expressions adds arrays, maps and bytes to the heap. It never touches a cell, so the
variables that closures share are the same after it (`Expr.keepsCells_eval`), also when it fails.
-/

namespace ScriptEngine

/-- The heap that an operation on it leaves, also when it fails. -/
def heapAfter {α : Type} : EStateM.Result Fault Heap α → Heap
  | .ok _ h | .error _ h => h

namespace HeapM

variable {α β : Type}

/-- An operation that changes no captured variable. -/
def KeepsCells (x : HeapM α) : Prop := ∀ h, (heapAfter (x h)).cells = h.cells

namespace KeepsCells

theorem pure (a : α) : KeepsCells (Pure.pure a) := fun _ => rfl

theorem throw (f : Fault) : KeepsCells (throw f : HeapM α) := fun _ => rfl

theorem get : KeepsCells (get) := fun _ => rfl

theorem bind {x : HeapM α} {f : α → HeapM β} (hx : KeepsCells x) (hf : ∀ a, KeepsCells (f a)) :
    KeepsCells (x >>= f) := by
  intro h
  have hx := hx h
  show (heapAfter (EStateM.bind x f h)).cells = h.cells
  rw [EStateM.bind]
  cases hxh : x h with
  | ok a h' =>
    rw [hxh] at hx
    exact (hf a h').trans hx
  | error e h' =>
    rw [hxh] at hx
    exact hx

theorem ite {p : Prop} [Decidable p] {x y : HeapM α} (hx : KeepsCells x) (hy : KeepsCells y) :
    KeepsCells (if p then x else y) := by
  split
  · exact hx
  · exact hy

theorem of_confined {x : HeapM α} (hx : x.Confined fun _ => False) : KeepsCells x := by
  intro h
  cases hr : x h with
  | ok a h' => exact ((hx h).1 a h' hr).cells
  | error c h' => exact congrArg Heap.cells ((hx h).2 c h' hr)

theorem ofExcept (r : Except Fault α) : KeepsCells (HeapM.ofExcept r) := of_confined (Leaves.ofExcept r).confined

theorem read (f : Heap → Except Fault α) : KeepsCells (HeapM.read f) := of_confined (Leaves.read f).confined

theorem freeze (v : Value) : KeepsCells v.freeze := by
  cases v with
  | array a | map a => exact get.bind fun h => fun _ => rfl
  | _ => exact pure _

end KeepsCells

end HeapM

section

open HeapM

variable {l : Limits} {look : String → HeapM Value}

mutual

/-- An evaluation changes no captured variable. -/
theorem Expr.keepsCells_eval (hlook : ∀ name, (look name).KeepsCells) : (e : Expr) → (e.eval l look).KeepsCells
  | .ident _ name => by
    rw [Expr.eval]
    exact hlook name
  | .int .. | .float .. | .char .. | .str .. | .bool .. | .undefined .. | .call .. | .func .. | .importModule ..
  | .bad .. => by
    rw [Expr.eval]
    exact .pure _
  | .array _ items => by
    rw [Expr.eval]
    exact (Expr.keepsCells_evalAll hlook items).bind fun vs => (KeepsCells.ofExcept _).bind fun _ => fun _ => rfl
  | .map _ entries => by
    rw [Expr.eval]
    exact (MapEntry.keepsCells_evalAll hlook entries).bind fun es => fun _ => rfl
  | .binary _ lhs op rhs => by
    rw [Expr.eval]
    have hrhs := Expr.keepsCells_eval hlook rhs
    refine (Expr.keepsCells_eval hlook lhs).bind fun x => ?_
    cases op with
    | logicalAnd => exact KeepsCells.get.bind fun h => .ite (.pure x) hrhs
    | logicalOr => exact KeepsCells.get.bind fun h => .ite hrhs (.pure x)
    | equal | notEqual => exact hrhs.bind fun y => KeepsCells.get.bind fun h => .pure _
    | arith op => exact hrhs.bind fun y => .of_confined (Value.confined_binary l op x y)
  | .unary _ op operand => by
    rw [Expr.eval]
    refine (Expr.keepsCells_eval hlook operand).bind fun v => ?_
    cases op with
    | negate | complement => exact .ofExcept _
    | logicalNot => exact KeepsCells.get.bind fun h => .pure _
    | plus => exact .pure v
  | .index _ target key => by
    rw [Expr.eval]
    exact (Expr.keepsCells_eval hlook target).bind fun v => (Expr.keepsCells_eval hlook key).bind fun k => .read _
  | .select _ target key => by
    rw [Expr.eval]
    exact (Expr.keepsCells_eval hlook target).bind fun v => .read _
  | .slice _ target low high => by
    rw [Expr.eval]
    exact (Expr.keepsCells_eval hlook target).bind fun v => (Expr.keepsCells_evalBound hlook low).bind fun lo =>
      (Expr.keepsCells_evalBound hlook high).bind fun hi => .of_confined (Value.confined_slice v lo hi)
  | .cond _ c a b => by
    rw [Expr.eval]
    exact (Expr.keepsCells_eval hlook c).bind fun v => KeepsCells.get.bind fun h =>
      .ite (Expr.keepsCells_eval hlook b) (Expr.keepsCells_eval hlook a)
  | .error _ value => by
    rw [Expr.eval]
    exact (Expr.keepsCells_eval hlook value).bind fun v => .pure _
  | .immutable _ value => by
    rw [Expr.eval]
    exact (Expr.keepsCells_eval hlook value).bind fun v => .freeze v
  | .paren _ inner => by
    rw [Expr.eval]
    exact Expr.keepsCells_eval hlook inner

theorem Expr.keepsCells_evalAll (hlook : ∀ name, (look name).KeepsCells) :
    (es : List Expr) → (Expr.evalAll l look es).KeepsCells
  | [] => by
    rw [Expr.evalAll]
    exact .pure _
  | e :: es => by
    rw [Expr.evalAll]
    exact (Expr.keepsCells_eval hlook e).bind fun v => (Expr.keepsCells_evalAll hlook es).bind fun vs => .pure _

theorem MapEntry.keepsCells_evalAll (hlook : ∀ name, (look name).KeepsCells) :
    (es : List MapEntry) → (MapEntry.evalAll l look es).KeepsCells
  | [] => by
    rw [MapEntry.evalAll]
    exact .pure _
  | .mk key _ value :: es => by
    rw [MapEntry.evalAll]
    exact (Expr.keepsCells_eval hlook value).bind fun v => (MapEntry.keepsCells_evalAll hlook es).bind fun vs => .pure _

theorem Expr.keepsCells_evalBound (hlook : ∀ name, (look name).KeepsCells) :
    (e : Option Expr) → (Expr.evalBound l look e).KeepsCells
  | none => by
    rw [Expr.evalBound]
    exact .pure _
  | some e => by
    rw [Expr.evalBound]
    exact Expr.keepsCells_eval hlook e

end

end

end ScriptEngine
