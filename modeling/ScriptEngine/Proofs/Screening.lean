import ScriptEngine.Module
/-!
# Screening syntax trees

A call that spreads its last argument needs one: the code of `f(...)` without arguments would spread `f`
itself. And the number of selectors of an assignment has to fit into an operand. Neither is checked when
a file is compiled. A `Screen` says what is asked of calls and of targets, and this module singles out
the files in which all calls and targets are as asked.
-/

namespace ScriptEngine

open Stmt

/-- How many selectors the target of an assignment has. -/
def Expr.selectorCount : Expr → Nat
  | .select _ target _ | .index _ target _ => target.selectorCount + 1
  | _ => 0

/-- What is asked of calls and of the targets of assignments. -/
structure Screen where
  /-- Calls with a number of arguments, the last one spread or not. -/
  call : Nat → Bool → Bool
  /-- Assignments through a number of selectors. -/
  target : Nat → Bool
  /-- A module is called without arguments. -/
  call_none : call 0 false = true

namespace Screen

/-- Nothing is asked. -/
def any : Screen := ⟨fun _ _ => true, fun _ => true, rfl⟩

/-- The number of selectors fits into an operand. -/
def shortTargets : Screen := ⟨fun _ _ => true, fun n => n ≤ 255, rfl⟩

end Screen

mutual

/-- Whether all calls and targets in an expression are as asked. -/
def Expr.passes (k : Screen) : Expr → Bool
  | .array _ items => Expr.allPass k items
  | .map _ entries => MapEntry.allPass k entries
  | .binary _ lhs _ rhs => lhs.passes k && rhs.passes k
  | .unary _ _ operand => operand.passes k
  | .call _ callee args spread => k.call args.length spread && (callee.passes k && Expr.allPass k args)
  | .func _ _ _ body => Block.passes k body
  | .index _ target key => target.passes k && key.passes k
  | .select _ target _ => target.passes k
  | .slice _ target low high => target.passes k && (Expr.boundPasses k low && Expr.boundPasses k high)
  | .cond _ c a b => c.passes k && (a.passes k && b.passes k)
  | .error _ value | .immutable _ value => value.passes k
  | .paren _ inner => inner.passes k
  | .ident .. | .int .. | .float .. | .char .. | .str .. | .bool .. | .undefined .. | .importModule ..
  | .bad .. => true

/-- Whether all calls and targets in expressions are as asked. -/
def Expr.allPass (k : Screen) : List Expr → Bool
  | [] => true
  | e :: rest => e.passes k && Expr.allPass k rest

/-- Whether all calls and targets in the entries of a map are as asked. -/
def MapEntry.allPass (k : Screen) : List MapEntry → Bool
  | [] => true
  | .mk _ _ value :: rest => value.passes k && MapEntry.allPass k rest

/-- Whether all calls and targets in an expression that may be absent are as asked. -/
def Expr.boundPasses (k : Screen) : Option Expr → Bool
  | none => true
  | some e => e.passes k

/-- Whether all calls and targets in a statement are as asked. -/
def Stmt.passes (k : Screen) : Stmt → Bool
  | .expr _ e => e.passes k
  | .assign _ targets values _ =>
    targets.all (k.target ·.selectorCount) && (Expr.allPass k targets && Expr.allPass k values)
  | .incDec _ target _ => k.target target.selectorCount && target.passes k
  | .block _ body => Block.passes k body
  | .ifThen _ init c body otherwise =>
    Stmt.optionalPasses k init && (c.passes k && (Block.passes k body && Stmt.optionalPasses k otherwise))
  | .loop _ init c post body =>
    Stmt.optionalPasses k init && (Expr.boundPasses k c && (Block.passes k body && Stmt.optionalPasses k post))
  | .forIn _ _ _ iterable body => iterable.passes k && Block.passes k body
  | .ret _ value => Expr.boundPasses k value
  | .exportValue _ value => value.passes k
  | .breakLoop _ | .continueLoop _ | .empty _ | .bad .. => true

/-- Whether all calls and targets in a statement that may be absent are as asked. -/
def Stmt.optionalPasses (k : Screen) : Option Stmt → Bool
  | none => true
  | some s => s.passes k

/-- Whether all calls and targets in statements are as asked. -/
def Stmt.allPass (k : Screen) : List Stmt → Bool
  | [] => true
  | s :: rest => s.passes k && Stmt.allPass k rest

/-- Whether all calls and targets in a block are as asked. -/
def Block.passes (k : Screen) : Block → Bool
  | .mk _ stmts => Stmt.allPass k stmts

end

/-- Whether all calls and targets in a file are as asked. -/
def File.passes (k : Screen) (file : File) : Bool := allPass k file.stmts

/-- All calls and targets in the files of a table are as asked. -/
def ModuleTable.Passes (k : Screen) (t : ModuleTable) : Prop :=
  ∀ name file, t.find? name = some (.source file) → file.passes k = true

/-! ### Nothing is asked -/

mutual

theorem Expr.passes_any : ∀ e : Expr, e.passes .any = true
  | .array _ items => by
    rw [Expr.passes]
    exact Expr.allPass_any items
  | .map _ entries => by
    rw [Expr.passes]
    exact MapEntry.allPass_any entries
  | .binary _ lhs _ rhs => by
    rw [Expr.passes, Expr.passes_any lhs, Expr.passes_any rhs]
    rfl
  | .unary _ _ operand => by
    rw [Expr.passes]
    exact Expr.passes_any operand
  | .call _ callee args _ => by
    rw [Expr.passes, Expr.passes_any callee, Expr.allPass_any args]
    rfl
  | .func _ _ _ body => by
    rw [Expr.passes]
    exact Block.passes_any body
  | .index _ target key => by
    rw [Expr.passes, Expr.passes_any target, Expr.passes_any key]
    rfl
  | .select _ target _ => by
    rw [Expr.passes]
    exact Expr.passes_any target
  | .slice _ target low high => by
    rw [Expr.passes, Expr.passes_any target, Expr.boundPasses_any low, Expr.boundPasses_any high]
    rfl
  | .cond _ c a b => by
    rw [Expr.passes, Expr.passes_any c, Expr.passes_any a, Expr.passes_any b]
    rfl
  | .error _ value | .immutable _ value => by
    rw [Expr.passes]
    exact Expr.passes_any value
  | .paren _ inner => by
    rw [Expr.passes]
    exact Expr.passes_any inner
  | .ident .. | .int .. | .float .. | .char .. | .str .. | .bool .. | .undefined .. | .importModule ..
  | .bad .. => by rw [Expr.passes]

theorem Expr.allPass_any : ∀ es : List Expr, Expr.allPass .any es = true
  | [] => by rw [Expr.allPass]
  | e :: rest => by
    rw [Expr.allPass, Expr.passes_any e, Expr.allPass_any rest]
    rfl

theorem MapEntry.allPass_any : ∀ es : List MapEntry, MapEntry.allPass .any es = true
  | [] => by rw [MapEntry.allPass]
  | .mk _ _ value :: rest => by
    rw [MapEntry.allPass, Expr.passes_any value, MapEntry.allPass_any rest]
    rfl

theorem Expr.boundPasses_any : ∀ e : Option Expr, Expr.boundPasses .any e = true
  | none => by rw [Expr.boundPasses]
  | some e => by
    rw [Expr.boundPasses]
    exact Expr.passes_any e

theorem Stmt.passes_any : ∀ s : Stmt, s.passes .any = true
  | .expr _ e => by
    rw [passes]
    exact Expr.passes_any e
  | .assign _ targets values _ => by
    rw [passes, Expr.allPass_any targets, Expr.allPass_any values]
    simp [Screen.any]
  | .incDec _ target _ => by
    rw [passes, Expr.passes_any target]
    rfl
  | .block _ body => by
    rw [passes]
    exact Block.passes_any body
  | .ifThen _ init c body otherwise => by
    rw [Stmt.passes, Stmt.optionalPasses_any init, Expr.passes_any c, Block.passes_any body,
      Stmt.optionalPasses_any otherwise]
    rfl
  | .loop _ init c post body => by
    rw [Stmt.passes, Stmt.optionalPasses_any init, Expr.boundPasses_any c, Block.passes_any body,
      Stmt.optionalPasses_any post]
    rfl
  | .forIn _ _ _ iterable body => by
    rw [passes, Expr.passes_any iterable, Block.passes_any body]
    rfl
  | .ret _ value => by
    rw [passes]
    exact Expr.boundPasses_any value
  | .exportValue _ value => by
    rw [passes]
    exact Expr.passes_any value
  | .breakLoop _ | .continueLoop _ | .empty _ | .bad .. => by rw [passes]

theorem Stmt.optionalPasses_any : ∀ s : Option Stmt, optionalPasses .any s = true
  | none => by rw [optionalPasses]
  | some s => by
    rw [Stmt.optionalPasses]
    exact Stmt.passes_any s

theorem Stmt.allPass_any : ∀ ss : List Stmt, allPass .any ss = true
  | [] => by rw [Stmt.allPass]
  | s :: rest => by
    rw [Stmt.allPass, Stmt.passes_any s, Stmt.allPass_any rest]
    rfl

theorem Block.passes_any : ∀ b : Block, b.passes .any = true
  | .mk _ stmts => by
    rw [Block.passes]
    exact Stmt.allPass_any stmts

end

theorem ModuleTable.passes_any (t : ModuleTable) : t.Passes .any := fun _ file _ => allPass_any file.stmts

/-! ### Modules of the host -/

/-- What the host provides as a module is a map. -/
def ModuleTable.ProvidesMaps (t : ModuleTable) : Prop :=
  ∀ name v, t.find? name = some (.native v) → ∃ a, v = .frozenMap a

end ScriptEngine
