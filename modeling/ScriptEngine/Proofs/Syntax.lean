import ScriptEngine.Compiler.Tree
/-!
# How statements end

A statement passes control on to what follows it or leaves the loop around it. Besides, this module
singles out the programs without functions: expressions in which nothing is called, and statements
that work on the variables of the main program only.
-/

namespace ScriptEngine

/-- How a piece of a program ends. -/
inductive Exit where
  /-- What follows comes next. -/
  | next
  /-- The innermost loop is left. -/
  | broke
  /-- The next round of the innermost loop is started. -/
  | continued
  deriving Repr, DecidableEq, Inhabited

namespace Exit

variable {μ : Type → Type} [Monad μ]

/-- Goes on if the first piece ends normally. -/
def andThen (x y : μ Exit) : μ Exit := do
  match ← x with
  | .next => y
  | other => return other

/-- Goes on with the next round of a loop unless the body ends the loop. -/
def thenAgain (body again : μ Exit) : μ Exit := do
  match ← body with
  | .broke => return .next
  | .next | .continued => again

end Exit

mutual

/-- Whether the code of a statement always leaves the block around it. -/
def Stmt.leaves (kind : BodyKind) : Stmt → Bool
  | .breakLoop _ | .continueLoop _ | .ret _ _ => true
  | .exportValue _ _ => kind = .module
  | .block _ body => Block.leaves kind body
  | _ => false

/-- Whether the code of statements always leaves the block around them. -/
def Stmt.anyLeaves (kind : BodyKind) : List Stmt → Bool
  | [] => false
  | s :: rest => Stmt.leaves kind s || Stmt.anyLeaves kind rest

/-- Whether the code of a block always leaves the block around it. -/
def Block.leaves (kind : BodyKind) : Block → Bool
  | .mk _ stmts => Stmt.anyLeaves kind stmts

end

/-! ### Programs without functions -/

mutual

/-- Whether an expression calls, makes and imports nothing. -/
def Expr.isFirstOrder : Expr → Bool
  | .array _ items => Expr.allFirstOrder items
  | .map _ entries => MapEntry.allFirstOrder entries
  | .binary _ lhs _ rhs => lhs.isFirstOrder && rhs.isFirstOrder
  | .unary _ _ operand => operand.isFirstOrder
  | .call .. | .func .. | .importModule .. => false
  | .index _ target key => target.isFirstOrder && key.isFirstOrder
  | .select _ target _ => target.isFirstOrder
  | .slice _ target low high =>
    target.isFirstOrder && Expr.boundFirstOrder low && Expr.boundFirstOrder high
  | .cond _ c a b => c.isFirstOrder && a.isFirstOrder && b.isFirstOrder
  | .error _ value | .immutable _ value => value.isFirstOrder
  | .paren _ inner => inner.isFirstOrder
  | .ident .. | .int .. | .float .. | .char .. | .str .. | .bool .. | .undefined .. | .bad .. => true

/-- Whether expressions call, make and import nothing. -/
def Expr.allFirstOrder : List Expr → Bool
  | [] => true
  | e :: rest => e.isFirstOrder && Expr.allFirstOrder rest

/-- Whether the entries of a map call, make and import nothing. -/
def MapEntry.allFirstOrder : List MapEntry → Bool
  | [] => true
  | .mk _ _ value :: rest => value.isFirstOrder && MapEntry.allFirstOrder rest

/-- Whether an expression that may be absent calls, makes and imports nothing. -/
def Expr.boundFirstOrder : Option Expr → Bool
  | none => true
  | some e => e.isFirstOrder

end

/-- Whether an expression is the target of an assignment that one operand can count the selectors of. -/
def Expr.isShortTarget (e : Expr) : Bool :=
  e.isFirstOrder && e.place?.all fun p => p.2 ≤ CompileM.maxNarrow

mutual

/-- Whether a statement consists of assignments, blocks, branches and loops over first-order
expressions. -/
def Stmt.isStructured : Stmt → Bool
  | .expr _ e => e.isFirstOrder
  | .assign _ targets values _ => targets.all Expr.isShortTarget && Expr.allFirstOrder values
  | .incDec _ target _ => target.isShortTarget
  | .block _ body => Block.isStructured body
  | .ifThen _ init c body otherwise =>
    Stmt.optionalStructured init && c.isFirstOrder && Block.isStructured body &&
      Stmt.optionalStructured otherwise
  | .loop _ init c post body =>
    Stmt.optionalStructured init && Expr.boundFirstOrder c && Stmt.optionalStructured post &&
      Block.isStructured body
  | .forIn _ _ _ iterable body => iterable.isFirstOrder && Block.isStructured body
  | .breakLoop _ | .continueLoop _ | .empty _ => true
  | .ret .. | .exportValue .. | .bad .. => false

/-- Whether a statement that may be absent is structured. -/
def Stmt.optionalStructured : Option Stmt → Bool
  | none => true
  | some s => s.isStructured

/-- Whether statements are structured. -/
def Stmt.allStructured : List Stmt → Bool
  | [] => true
  | s :: rest => s.isStructured && Stmt.allStructured rest

/-- Whether the statements of a block are structured. -/
def Block.isStructured : Block → Bool
  | .mk _ stmts => Stmt.allStructured stmts

end

end ScriptEngine
