import ScriptEngine.Builtin.Call
import ScriptEngine.Machine
/-!
# Calls

How values are called. Arguments lie on the stack above the callee. A compiled function gets a frame
whose local variables start with the arguments; a native function takes callee and arguments off the
stack and leaves its result.
-/

namespace ScriptEngine

/-- Calls a value with arguments and waits for the result. -/
abbrev Invoke := Value → List Value → Exec Value

namespace Exec

/-- Makes room for the local variables of a function from a place of the stack on; none of them has a
cell. -/
def reserveLocals (s : Setting) (f : Function) (base : Nat) : Exec Unit := fun m =>
  let top := base + f.locals
  if s.config.stackSize < top then .error (.failure { cause := .stackOverflow }) m
  else
    let clear (cells : Array (Option Addr)) : Array (Option Addr) :=
      f.locals.fold (fun i _ cells => cells.setIfInBounds (base + i) none) cells
    .ok () { m with
      stack := fillUp m.stack top .undefined
      cells := clear (fillUp m.cells top none) }

/-- Enters a function whose arguments lie on the stack from a place on. -/
def enter (s : Setting) (f : Function) (base : Nat) : Exec Unit := do
  reserveLocals s f base
  modify fun m => { m with frames := { func := f, base } :: m.frames }

/-- Collects the arguments beyond the fixed ones in an array, and gives the number of arguments that
are then on the stack. -/
def collectRest (s : Setting) (f : Function) (n : Nat) : Exec Nat := do
  if f.variadic then
    let fixed := f.parameters - 1
    if n < fixed then fault (.wrongArgumentCount s!"at least {fixed}" n)
    let rest ← popMany (n - fixed)
    alloc
    push s (← onHeap (HeapM.array rest))
    return fixed + 1
  else return n

/-- Starts the innermost frame again with new arguments. -/
def restart (s : Setting) (f : Function) (frame : Frame) (outer : List Frame) (n : Nat) :
    Exec Unit := do
  modify fun m =>
    let args := m.stack.extract (m.stack.size - n) m.stack.size
    { m with
      frames := { frame with func := f, next := 0 } :: outer
      stack := (m.stack.shrink (m.stack.size - n)).shrink frame.base ++ args }
  reserveLocals s f frame.base

/-- The innermost frame, if a call of a function may take its place: the function calls itself and
returns the result at once. -/
def reusable (s : Setting) (f : Function) (frames : List Frame) : Option (Frame × List Frame) :=
  match frames with
  | frame :: outer =>
    if s.config.reuseFrames && frame.func.id == f.id && frame.returnsNext then some (frame, outer)
    else none
  | [] => none

def callFunction (s : Setting) (f : Function) (n : Nat) (mayReuse : Bool) : Exec Unit := do
  let n ← collectRest s f n
  if n ≠ f.parameters then fault (.wrongArgumentCount (Text.decimal f.parameters) n)
  let frames := (← get).frames
  match if mayReuse then reusable s f frames else none with
  | some (frame, outer) => restart s f frame outer n
  | none =>
    if s.config.maxFrames ≤ frames.length then fault .stackOverflow
    enter s f ((← get).stack.size - n)

/-- Does what a function of the host asks for. -/
def perform (s : Setting) (invoke : Invoke) : HostAction → Exec Value
  | .done (.ok v) => pure v
  | .done (.error f) => throw (.failure f)
  | .call callee args next => fun m =>
    match (do checkToken; invoke callee args : Exec Value) m with
    | .ok v m => perform s invoke (next (.ok v)) m
    | .error (.failure f) m => perform s invoke (next (.error f)) m
    | .error .outOfFuel m => .error .outOfFuel m
  | .onHeap op next => fun m =>
    let (h, m) := takeHeap m
    match op h with
    | .ok v h => perform s invoke (next (.ok v)) { m with heap := h }
    | .error f h => perform s invoke (next (.error f)) { m with heap := h }
  | .limits next => perform s invoke (next s.limits)
  | .cancel next => fun m => perform s invoke next { m with token := m.token.cancel }

def callNative (s : Setting) (invoke : Invoke) (f : Native) (n : Nat) : Exec Unit := do
  checkToken
  let args ← popMany n
  discard pop
  let v ←
    match f with
    | .builtin b => onHeap (b.call s.limits args.toList)
    | .host name => perform s invoke (s.host name args.toList)
  alloc
  push s v

/-- Puts the items of the last argument on the stack in its place, and gives the number of arguments
that there are then. -/
def spread (s : Setting) (n : Nat) : Exec Nat := do
  let last ← pop
  match last with
  | .array a | .frozenArray a =>
    let items ← inspect (·.array a)
    pushAll s items.toList
    return n - 1 + items.size
  | other => fault (.argumentType "last" "array" other.typeName)

/-- Calls the value below the topmost `n` ones with these. -/
def call (s : Setting) (invoke : Invoke) (n : Nat) (isSpread : Bool) : Exec Unit := do
  let n ← if isSpread then spread s n else pure n
  let stack := (← get).stack
  if stack.size < n + 1 then fault underflow
  match stack.getD (stack.size - (n + 1)) .undefined with
  | .function f => callFunction s f n true
  | .native f => callNative s invoke f n
  | other => fault (.notCallable other.typeName)

end Exec

end ScriptEngine
