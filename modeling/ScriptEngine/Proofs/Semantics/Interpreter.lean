import ScriptEngine.Proofs.Expression.Evaluator
import ScriptEngine.Proofs.Syntax
/-!
# An interpreter of syntax trees

What structured programs mean, said directly. Variables live in slots of a world, numbered by the
order in which the text of a program defines them: a definition inside a loop has one slot for all
rounds, and two blocks never share a slot. Which slot a name stands for is known without running
anything, so `Stmt.exec` runs a statement in an environment, and `Stmt.after` is the environment of
what follows it.

A loop may run for ever, so every loop gets as many rounds as the fuel says.
-/

namespace ScriptEngine

/-- What programs work on: some slots for their variables and the contents of shared values. -/
structure World (slots : Nat) where
  globals : Vector Value slots
  heap : Heap

/-- Why an interpretation ends early. -/
inductive Stop where
  | fault (f : Fault)
  | outOfFuel
  deriving Repr, DecidableEq, Inhabited

/-- Interpretation changes the world, also when it fails. -/
abbrev Eval (slots : Nat) := EStateM Stop (World slots)

variable {slots : Nat}

namespace Eval

/-- Works on the heap. -/
def onHeap (op : HeapM α) : Eval slots α := fun w =>
  match op w.heap with
  | .ok a h => .ok a { w with heap := h }
  | .error f h => .error (.fault f) { w with heap := h }

/-- Reads the heap. -/
def inspect (f : Heap → α) : Eval slots α := fun w => .ok (f w.heap) w

/-- The value of a variable. -/
def load (slot : Nat) : Eval slots Value := fun w => .ok (w.globals[slot]?.getD .undefined) w

/-- Sets a variable. -/
def store (slot : Nat) (v : Value) : Eval slots Unit := fun w =>
  .ok () { w with globals := w.globals.setIfInBounds slot v }

/-- Runs a loop for at most some rounds. What comes between the rounds belongs to the loop around. -/
def rounds (test : Eval slots Bool) (body post : Eval slots Exit) : Nat → Eval slots Exit
  | 0 => throw .outOfFuel
  | n + 1 => do
    if ← test then Exit.thenAgain body (Exit.andThen post (rounds test body post n))
    else return .next

end Eval

/-! ### Names -/

/-- What a name stands for. -/
inductive Place where
  | slot (index : Nat)
  | builtin (b : Builtin)
  deriving Repr, DecidableEq, Inhabited

/-- What is known about names at some point of a program, and the slot of the next definition. -/
structure Env where
  places : String → Option Place
  next : Nat

namespace Env

/-- The environment after a definition. -/
def define (env : Env) (name : String) : Env where
  places := fun x => if x = name then some (.slot env.next) else env.places x
  next := env.next + 1

/-- The environment after a block that ends in another one: its names are forgotten, its slots stay
in use. -/
def leaving (env inner : Env) : Env := { env with next := inner.next }

/-- The environment in which a name may be bound to what an iterator stands at. -/
def bindItem (env : Env) (x : Ident) : Env := if x.name ≠ "_" then env.define x.name else env

/-- The environment in which the names of a loop over items are bound. -/
def bindItems (env : Env) (key : Ident) : Option Ident → Env
  | none => env.bindItem key
  | some value => (env.bindItem key).bindItem value

/-- What a name means. -/
def look (env : Env) (globals : Vector Value slots) (name : String) : HeapM Value :=
  match env.places name with
  | some (.slot index) => return globals[index]?.getD .undefined
  | some (.builtin b) => return .native (.builtin b)
  | none => return .undefined

/-- The slot of the variable that an assignment goes to. -/
def slotOf (env : Env) (target : Expr) : Option Nat := do
  let (name, _) ← target.place?
  match ← env.places name with
  | .slot index => some index
  | .builtin _ => none

end Env

mutual

/-- The environment of what follows a statement. -/
def Stmt.after (env : Env) : Stmt → Env
  | .assign _ [target] _ .define =>
    match target.place? with
    | some (name, _) => env.define name
    | none => env
  | .block _ body => Block.after env body
  | .ifThen _ init _ body otherwise =>
    let inside := Stmt.afterOptional env init
    env.leaving (Stmt.afterOptional (Block.after inside body) otherwise)
  | .loop _ init _ post body =>
    let inside := Stmt.afterOptional env init
    env.leaving (Stmt.afterOptional (Block.after inside body) post)
  | .forIn _ key value _ body => env.leaving (Block.after ((env.define ":it").bindItems key value) body)
  | _ => env

/-- The environment of what follows a statement that may be absent. -/
def Stmt.afterOptional (env : Env) : Option Stmt → Env
  | none => env
  | some s => Stmt.after env s

/-- The environment at the end of statements; those that control never reaches define nothing. -/
def Stmt.afterAll (env : Env) : List Stmt → Env
  | [] => env
  | s :: rest => if s.leaves .main then Stmt.after env s else Stmt.afterAll (Stmt.after env s) rest

/-- The environment of what follows a block. -/
def Block.after (env : Env) : Block → Env
  | .mk _ stmts => env.leaving (Stmt.afterAll env stmts)

end

/-! ### Expressions -/

/-- The value of an expression. -/
def Expr.value (l : Limits) (env : Env) (e : Expr) : Eval slots Value := fun w =>
  Eval.onHeap (e.eval l (env.look w.globals)) w

/-- The selectors of the target of an assignment. -/
def Expr.selectors (l : Limits) (env : Env) (e : Expr) : Eval slots (List Value) := fun w =>
  Eval.onHeap (e.evalSelectors l (env.look w.globals)) w

/-- The part of a value that selectors lead to, the last one first. -/
def Value.part (h : Heap) (v : Value) : List Value → Except Fault Value
  | [] => .ok v
  | key :: path => do (← v.part h path).get h key

/-- Sets a variable, or the part of its value that selectors lead to. -/
def Eval.assign (slot : Nat) (v : Value) : List Value → Eval slots Unit
  | [] => store slot v
  | last :: path => do
    let target ← load slot
    let holder ← onHeap (HeapM.read fun h => target.part h path)
    onHeap (holder.set last v)

/-! ### Statements -/

/-- Binds a name to what an iterator stands at, unless the name is a blank. -/
def Env.bindItemTo (env : Env) (it : Nat) (item : Heap → Value → Except Fault Value) (x : Ident) :
    Eval slots Unit := do
  if x.name ≠ "_" then
    let v ← Eval.load it
    Eval.store env.next (← Eval.onHeap (HeapM.read fun h => item h v))

/-- Binds the names of a loop over items. -/
def Env.bindItemsTo (env : Env) (it : Nat) (key : Ident) : Option Ident → Eval slots Unit
  | none => env.bindItemTo it Value.iteratorValue key
  | some value => do
    env.bindItemTo it Value.iteratorKey key
    (env.bindItem key).bindItemTo it Value.iteratorValue value

section

variable (l : Limits)

/-- Assigns a value to a target whose selectors are still to be evaluated. -/
def Expr.assign (env : Env) (target : Expr) (v : Value) : Eval slots Unit := do
  let path ← target.selectors l env
  match env.slotOf target with
  | some slot => Eval.assign slot v path
  | none => return

/-- Combines the value of a target with another value, which is evaluated after it. -/
def Expr.combine (env : Env) (target : Expr) (op : Operator) (value : Eval slots Value) : Eval slots Unit := do
  let old ← target.value l env
  let new ← value
  target.assign l env (← Eval.onHeap (old.binary l op new))

/-- Whether a loop with an optional condition goes on. -/
def Expr.test (env : Env) : Option Expr → Eval slots Bool
  | none => return true
  | some c => do
    let v ← c.value l env
    return !(← Eval.inspect v.isFalsy)

variable (fuel : Nat)

mutual

/-- Runs a statement. -/
def Stmt.exec (env : Env) : Stmt → Eval slots Exit
  | .expr _ e => do
    let _ ← e.value l env
    return .next
  | .assign _ [target] [value] op => do
    match op with
    | .define => Eval.store env.next (← value.value l env)
    | .assign => target.assign l env (← value.value l env)
    | .combine op => target.combine l env op (value.value l env)
    return .next
  | .incDec _ target up => do
    target.combine l env (if up then .add else .sub) (pure (.int 1))
    return .next
  | .block _ body => Block.exec env body
  | .ifThen _ init c body otherwise =>
    let inside := Stmt.afterOptional env init
    Exit.andThen (Stmt.execOptional env init) do
      let v ← c.value l inside
      if ← Eval.inspect v.isFalsy then Stmt.execOptional (Block.after inside body) otherwise
      else Block.exec inside body
  | .loop _ init c post body =>
    let inside := Stmt.afterOptional env init
    Exit.andThen (Stmt.execOptional env init)
      (Eval.rounds (Expr.test l inside c) (Block.exec inside body)
        (Stmt.execOptional (Block.after inside body) post) fuel)
  | .forIn _ key value iterable body => do
    let it := env.next
    let inside := env.define ":it"
    let v ← iterable.value l inside
    Eval.store it (← Eval.onHeap v.iterate)
    let next := do
      let v ← Eval.load it
      Eval.onHeap v.advance
    let body := do
      inside.bindItemsTo it key value
      Block.exec (inside.bindItems key value) body
    Eval.rounds next body (pure .next) fuel
  | .breakLoop _ => return .broke
  | .continueLoop _ => return .continued
  | _ => return .next

/-- Runs a statement that may be absent. -/
def Stmt.execOptional (env : Env) : Option Stmt → Eval slots Exit
  | none => return .next
  | some s => Stmt.exec env s

/-- Runs statements in turn. -/
def Stmt.execAll (env : Env) : List Stmt → Eval slots Exit
  | [] => return .next
  | s :: rest => Exit.andThen (Stmt.exec env s) (Stmt.execAll (Stmt.after env s) rest)

/-- Runs a block. -/
def Block.exec (env : Env) : Block → Eval slots Exit
  | .mk _ stmts => Stmt.execAll env stmts

end

end

end ScriptEngine
