import ScriptEngine.Host
import ScriptEngine.Program
/-!
# The machine

A stack machine that runs programs. All calls share one stack of values; a frame knows where its
local variables start. A local variable lives on the stack until a function captures it, and from
then on in a cell of the heap; `cells` says for each place of the stack whether it has one.
-/

namespace ScriptEngine

/-- How large a machine is and how it works. -/
structure MachineConfig where
  stackSize : Nat := 2048
  maxFrames : Nat := 1024
  globals : Nat := 1024
  /-- After how many instructions it is checked whether to stop. -/
  checkInterval : Nat := 1024
  /-- Whether a function that calls itself as its last act keeps its frame. -/
  reuseFrames : Bool := true
  deriving Repr, DecidableEq, Inhabited

structure Setting where
  program : Program := {}
  config : MachineConfig := {}
  limits : Limits := {}
  host : Host := Host.none

structure Frame where
  func : Function
  /-- The offset of the next instruction. -/
  next : Nat := 0
  /-- The offset of the instruction at hand. -/
  current : Nat := 0
  /-- Where the local variables start. -/
  base : Nat := 0
  deriving Inhabited

/-- Whether the next instruction returns a value. -/
def Frame.returnsNext (f : Frame) : Bool :=
  f.func.code[f.next]? == some Opcode.ret.byte && f.func.code[f.next + 1]? == some 1

inductive MachineStatus where
  | ready
  | running
  | suspended
  | aborted
  deriving Repr, DecidableEq, Inhabited

structure Machine where
  heap : Heap := {}
  globals : Array Value := #[]
  stack : Array Value := #[]
  cells : Array (Option Addr) := #[]
  /-- Cells on their way into a new function. -/
  captures : Array Addr := #[]
  /-- The active calls, innermost first. -/
  frames : List Frame := []
  /-- How many values may still be allocated; negative means any number. -/
  allocs : Int := -1
  /-- Instructions since it was last checked whether to stop. -/
  ticks : Nat := 0
  token : CancelToken := {}
  status : MachineStatus := .ready
  deriving Inhabited

inductive Halt where
  | failure (f : Failure)
  | outOfFuel
  deriving Repr, DecidableEq, Inhabited

/-- Execution changes the machine, also when it fails. -/
abbrev Exec := EStateM Halt Machine

namespace Exec

def fault (f : Fault) : Exec α := throw (.failure { cause := f })

/-- Goes on with a result that may be a failure. -/
def ofExcept : Except Fault α → Exec α
  | .ok a => pure a
  | .error f => fault f

/-- Takes the heap out of a machine. -/
@[noinline]
def takeHeap (m : Machine) : Heap × Machine := (m.heap, { m with heap := {} })

def onHeap (op : HeapM α) : Exec α := fun m =>
  let (h, m) := takeHeap m
  match op h with
  | .ok a h => .ok a { m with heap := h }
  | .error f h => .error (.failure { cause := f }) { m with heap := h }

def inspect (f : Heap → α) : Exec α := fun m => .ok (f m.heap) m

def examine (f : Heap → Except Fault α) : Exec α := fun m =>
  match f m.heap with
  | .ok a => .ok a m
  | .error f => .error (.failure { cause := f }) m

def checkToken : Exec Unit := fun m =>
  match m.token.check with
  | .ok () => .ok () m
  | .error f => .error (.failure { cause := f }) m

def alloc : Exec Unit := fun m =>
  if m.allocs = 0 then .error (.failure { cause := .allocationLimit }) m
  else if 0 < m.allocs then .ok () { m with allocs := m.allocs - 1 }
  else .ok () m

/-! ### The stack -/

/-- There are fewer values than needed. -/
def underflow : Fault := .custom "stack underflow"

def push (s : Setting) (v : Value) : Exec Unit := fun m =>
  if s.config.stackSize ≤ m.stack.size then .error (.failure { cause := .stackOverflow }) m
  else .ok () { m with stack := m.stack.push v }

def pushAll (s : Setting) : List Value → Exec Unit
  | [] => pure ()
  | v :: rest => do
    push s v
    pushAll s rest

def pop : Exec Value := fun m =>
  match m.stack.back? with
  | some v => .ok v { m with stack := m.stack.pop }
  | none => .error (.failure { cause := underflow }) m

def top : Exec Value := fun m =>
  match m.stack.back? with
  | some v => .ok v m
  | none => .error (.failure { cause := underflow }) m

/-- Takes the topmost `n` values off the stack, in the order in which they were put there. -/
def popMany (n : Nat) : Exec (Array Value) := fun m =>
  if m.stack.size < n then .error (.failure { cause := underflow }) m
  else
    let rest := m.stack.size - n
    let items := m.stack.extract rest m.stack.size
    .ok items { m with stack := m.stack.shrink rest }

/-! ### Frames and variables -/

def frame : Exec Frame := fun m =>
  match m.frames with
  | f :: _ => .ok f m
  | [] => .error (.failure { cause := .custom "no active frame" }) m

def jump (target : Nat) : Exec Unit := fun m =>
  match m.frames with
  | f :: rest => .ok () { m with frames := { f with next := target } :: rest }
  | [] => .error (.failure { cause := .custom "no active frame" }) m

def localPlace (index : Nat) : Exec Nat := do
  let place := (← frame).base + index
  if (← get).stack.size ≤ place then fault (.custom s!"local {index} out of range")
  return place

/-- The cell of a place of the stack, if it has one. -/
def cellAt (place : Nat) : Exec (Option Addr) := fun m => .ok ((m.cells[place]?).join) m

def getLocal (index : Nat) : Exec Value := do
  let place ← localPlace index
  match ← cellAt place with
  | some cell => inspect (·.cell cell)
  | none => return (← get).stack.getD place .undefined

def setLocal (index : Nat) (v : Value) : Exec Unit := do
  let place ← localPlace index
  match ← cellAt place with
  | some cell => onHeap fun h => .ok () (h.setCell cell v)
  | none => modify fun m => { m with stack := m.stack.setIfInBounds place v }

/-- Makes a new local variable: the place no longer has a cell. -/
def defineLocal (index : Nat) (v : Value) : Exec Unit := do
  let place ← localPlace index
  modify fun m =>
    { m with stack := m.stack.setIfInBounds place v, cells := m.cells.setIfInBounds place none }

def fillUp (xs : Array α) (size : Nat) (x : α) : Array α := xs ++ Array.replicate (size - xs.size) x

/-- The cell of a local variable; the first capture moves the variable into one. -/
def captureLocal (index : Nat) : Exec Addr := do
  let place ← localPlace index
  match ← cellAt place with
  | some cell => return cell
  | none =>
    let v := (← get).stack.getD place .undefined
    let cell ← onHeap fun h =>
      let (a, h) := h.newCell v
      .ok a h
    modify fun m =>
      { m with cells := (fillUp m.cells (place + 1) none).setIfInBounds place (some cell) }
    return cell

def captured (index : Nat) : Exec Addr := do
  match (← frame).func.captured[index]? with
  | some cell => return cell
  | none => fault (.custom s!"free variable {index} out of range")

def getGlobal (slot : Nat) : Exec Value := fun m =>
  match m.globals[slot]? with
  | some v => .ok v m
  | none => .error (.failure { cause := .globalOutOfRange slot }) m

def setGlobal (slot : Nat) (v : Value) : Exec Unit := fun m =>
  if slot < m.globals.size then .ok () { m with globals := m.globals.setIfInBounds slot v }
  else .error (.failure { cause := .globalOutOfRange slot }) m

end Exec

end ScriptEngine
