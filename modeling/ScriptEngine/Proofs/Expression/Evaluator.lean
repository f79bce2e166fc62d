import ScriptEngine.Compiler.Tree
import ScriptEngine.Limits
import ScriptEngine.Value.Access
import ScriptEngine.Value.Arithmetic
import ScriptEngine.Value.Copy
import ScriptEngine.Value.Equality
/-!
# An evaluator of expressions

What an expression without calls means, said directly: operands from left to right, and of a choice
only the branch that it needs. What names mean is a parameter. `Expr.height` says how many values an
evaluation holds at a time, so that a stack with that much room is enough for it.
-/

namespace ScriptEngine

section

variable (l : Limits) (look : String → HeapM Value)

mutual

/-- The value of an expression. Calls, functions and imports have none here. -/
def Expr.eval : Expr → HeapM Value
  | .ident _ name => look name
  | .int _ v => return .int v
  | .float _ v => return .float v
  | .char _ c => return .char c
  | .str _ s => return .string s
  | .bool _ b => return .bool b
  | .undefined _ => return .undefined
  | .array _ items => do
    let vs ← Expr.evalAll items
    HeapM.ofExcept (l.checkArray vs.length)
    HeapM.array vs.toArray
  | .map _ entries => do
    let es ← MapEntry.evalAll entries
    HeapM.map (es.foldl (fun d e => d.insert e.1 e.2) {})
  | .binary _ lhs op rhs => do
    let x ← lhs.eval
    match op with
    | .logicalAnd => if x.isFalsy (← get) then return x else rhs.eval
    | .logicalOr => if x.isFalsy (← get) then rhs.eval else return x
    | .equal =>
      let y ← rhs.eval
      return .bool (x.equal (← get) y)
    | .notEqual =>
      let y ← rhs.eval
      return .bool (!x.equal (← get) y)
    | .arith op =>
      let y ← rhs.eval
      x.binary l op y
  | .unary _ op operand => do
    let v ← operand.eval
    match op with
    | .negate => HeapM.ofExcept v.negate
    | .logicalNot => return .bool (v.isFalsy (← get))
    | .complement => HeapM.ofExcept v.complement
    | .plus => return v
  | .index _ target key => do
    let v ← target.eval
    let k ← key.eval
    HeapM.read fun h => v.get h k
  | .select _ target key => do
    let v ← target.eval
    HeapM.read fun h => v.get h (.string key)
  | .slice _ target low high => do
    let v ← target.eval
    let lo ← Expr.evalBound low
    let hi ← Expr.evalBound high
    v.slice lo hi
  | .cond _ c a b => do
    let v ← c.eval
    if v.isFalsy (← get) then b.eval else a.eval
  | .error _ value => do return .error (← value.eval)
  | .immutable _ value => do
    let v ← value.eval
    v.freeze
  | .paren _ inner => inner.eval
  | .call .. | .func .. | .importModule .. | .bad .. => return .undefined

/-- The values of expressions in turn. -/
def Expr.evalAll : List Expr → HeapM (List Value)
  | [] => return []
  | e :: rest => do
    let v ← e.eval
    return v :: (← Expr.evalAll rest)

/-- The keys and values of entries in turn. -/
def MapEntry.evalAll : List MapEntry → HeapM (List (String × Value))
  | [] => return []
  | .mk key _ value :: rest => do
    let v ← value.eval
    return (key, v) :: (← MapEntry.evalAll rest)

/-- The bound of a slice. -/
def Expr.evalBound : Option Expr → HeapM Value
  | some e => e.eval
  | none => return .undefined

end

/-- The selectors of the target of an assignment. The last one is evaluated first. -/
def Expr.evalSelectors : Expr → HeapM (List Value)
  | .select _ target key => do return .string key :: (← target.evalSelectors)
  | .index _ target key => do
    let k ← key.eval l look
    return k :: (← target.evalSelectors)
  | _ => return []

end

/-! ### Values at a time -/

mutual

/-- How many values an evaluation holds at a time. -/
def Expr.height : Expr → Nat
  | .array _ items => max 1 (Expr.heights items)
  | .map _ entries => max 1 (MapEntry.heights entries)
  | .binary _ lhs _ rhs => max lhs.height (rhs.height + 1)
  | .unary _ _ operand => operand.height
  | .index _ target key => max target.height (key.height + 1)
  | .select _ target _ => max target.height 2
  | .slice _ target low high =>
    max target.height (max (Expr.boundHeight low + 1) (Expr.boundHeight high + 2))
  | .cond _ c a b => max c.height (max a.height b.height)
  | .error _ value | .immutable _ value => value.height
  | .paren _ inner => inner.height
  | _ => 1

/-- How many values the evaluation of expressions holds at a time. -/
def Expr.heights : List Expr → Nat
  | [] => 0
  | e :: rest => max e.height (Expr.heights rest + 1)

/-- How many values the evaluation of entries holds at a time, their keys included. -/
def MapEntry.heights : List MapEntry → Nat
  | [] => 0
  | .mk _ _ value :: rest => max (value.height + 1) (MapEntry.heights rest + 2)

/-- How many values the evaluation of a bound of a slice holds at a time. -/
def Expr.boundHeight : Option Expr → Nat
  | none => 1
  | some e => e.height

end

/-- How many values the evaluation of selectors holds at a time. -/
def Expr.selectorsHeight : Expr → Nat
  | .select _ target _ => target.selectorsHeight + 1
  | .index _ target key => max key.height (target.selectorsHeight + 1)
  | _ => 0

theorem Expr.height_pos : (e : Expr) → 0 < e.height
  | .ident .. | .int .. | .float .. | .char .. | .str .. | .bool .. | .undefined .. | .call .. | .func ..
  | .importModule .. | .bad .. => by simp only [Expr.height, Nat.one_pos]
  | .array .. | .map .. | .binary .. | .index .. | .select .. | .slice .. => by
    simp only [Expr.height]
    omega
  | .cond _ c _ _ => by
    have := c.height_pos
    simp only [Expr.height]
    omega
  | .unary _ _ e | .error _ e | .immutable _ e | .paren _ e => by
    have := e.height_pos
    exact this

/-! ### What an evaluation computes -/

section

variable {l : Limits} {look : String → HeapM Value} {h h' : Heap}

theorem HeapM.bind_eq_ok {α β : Type} {x : HeapM α} {f : α → HeapM β} {b : β}
    (hok : (x >>= f) h = .ok b h') : ∃ a h1, x h = .ok a h1 ∧ f a h1 = .ok b h' := by
  change EStateM.bind x f h = _ at hok
  rw [EStateM.bind] at hok
  split at hok
  · next a h1 hx => exact ⟨a, h1, hx, hok⟩
  · cases hok

theorem Expr.length_evalAll {es : List Expr} {vs : List Value} (hok : Expr.evalAll l look es h = .ok vs h') :
    vs.length = es.length := by
  induction es generalizing h vs with
  | nil =>
    cases hok
    rfl
  | cons e es ih =>
    obtain ⟨v, h1, -, hok⟩ := HeapM.bind_eq_ok hok
    obtain ⟨rest, h2, hrest, hok⟩ := HeapM.bind_eq_ok hok
    cases hok
    exact congrArg (· + 1) (ih hrest)

theorem MapEntry.length_evalAll {es : List MapEntry} {items : List (String × Value)}
    (hok : MapEntry.evalAll l look es h = .ok items h') : items.length = es.length := by
  induction es generalizing h items with
  | nil =>
    cases hok
    rfl
  | cons e es ih =>
    obtain ⟨key, pos, value⟩ := e
    obtain ⟨v, h1, -, hok⟩ := HeapM.bind_eq_ok hok
    obtain ⟨rest, h2, hrest, hok⟩ := HeapM.bind_eq_ok hok
    cases hok
    exact congrArg (· + 1) (ih hrest)

theorem Expr.length_evalSelectors {e : Expr} {name : String} {n : Nat} {path : List Value}
    (hplace : e.place? = some (name, n)) (hok : e.evalSelectors l look h = .ok path h') : path.length = n := by
  fun_induction Expr.evalSelectors l look e generalizing h n path with
  | case1 pos target key ih =>
    obtain ⟨⟨name', n'⟩, htarget, heq⟩ := Option.map_eq_some_iff.1 hplace
    cases heq
    obtain ⟨rest, h1, hrest, hok⟩ := HeapM.bind_eq_ok hok
    cases hok
    exact congrArg (· + 1) (ih htarget hrest)
  | case2 pos target key ih =>
    obtain ⟨⟨name', n'⟩, htarget, heq⟩ := Option.map_eq_some_iff.1 hplace
    cases heq
    obtain ⟨k, h1, -, hok⟩ := HeapM.bind_eq_ok hok
    obtain ⟨rest, h2, hrest, hok⟩ := HeapM.bind_eq_ok hok
    cases hok
    exact congrArg (· + 1) (ih htarget hrest)
  | case3 e hselect hindex =>
    cases e with
    | ident =>
      cases hplace
      cases hok
      rfl
    | select pos target key => exact absurd rfl (hselect pos target key)
    | index pos target key => exact absurd rfl (hindex pos target key)
    | _ => cases hplace

end

end ScriptEngine
