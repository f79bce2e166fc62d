import ScriptEngine.Machine.Step
/-!
# Runs

Running a program, and calling its functions from outside. A run may go on for ever, so it gets
fuel: one unit for each instruction. Running out of fuel is no failure of the program, and nothing in
the program can catch it.
-/

namespace ScriptEngine

namespace Exec

/-- The places of the calls above a floor, innermost first. -/
def places (s : Setting) (floor : Nat) (m : Machine) : List Location :=
  (m.frames.take (m.frames.length - floor)).map fun f =>
    s.program.files.locate (f.func.positions.find f.current)

/-- Calls a value on top of the calls that are active; `go` runs until the calls above a floor are
done. -/
def callValue (s : Setting) (go : Nat → Exec (Option Value)) (invoke : Invoke) (callee : Value)
    (args : List Value) : Exec Value := do
  checkToken
  let floor := (← get).frames.length
  push s callee
  pushAll s args
  match callee with
  | .function f =>
    callFunction s f args.length false
    return (← go floor).getD .undefined
  | .native f =>
    callNative s invoke f args.length
    pop
  | other => fault (.notCallable other.typeName)

/-- Takes a machine back to an earlier height of stack and frames. -/
def unwind (height depth : Nat) (m : Machine) : Machine :=
  { m with
    stack := m.stack.shrink height
    frames := m.frames.drop (m.frames.length - depth)
    cells := m.cells.shrink height }

/-- Runs a body; after a failure stack and frames are back at the given height and depth. -/
@[noinline]
def unwinding (height depth : Nat) (body : Exec Value) : Exec Value := fun m =>
  match body m with
  | .ok v m => .ok v m
  | .error (.failure f) m => .error (.failure f) (unwind height depth m)
  | .error .outOfFuel m => .error .outOfFuel m

/-- Runs a body; after a failure stack and frames are as before. -/
def guarded (body : Exec Value) : Exec Value := fun m =>
  unwinding m.stack.size m.frames.length body m

mutual

/-- Runs until the calls above the floor are done. The result is none when the program suspends. A
failure gets the places of these calls. -/
def runLoop (s : Setting) : (fuel : Nat) → (floor : Nat) → Exec (Option Value)
  | 0, _ => throw .outOfFuel
  | fuel + 1, floor => fun m =>
    match step s (invoke s fuel) floor m with
    | .ok .goOn m => runLoop s fuel floor m
    | .ok (.returned v) m => .ok (some v) m
    | .ok .suspended m => .ok none m
    | .error .outOfFuel m => .error .outOfFuel m
    | .error (.failure f) m => .error (.failure (f.addTrace (places s floor m))) m

/-- Calls a value from outside or from a native function. -/
def invoke (s : Setting) : (fuel : Nat) → Invoke
  | 0, _, _ => throw .outOfFuel
  | fuel + 1, callee, args => guarded (callValue s (runLoop s fuel) (invoke s fuel) callee args)

end

def start (s : Setting) (fuel : Nat) : Exec (Option Value) := do
  checkToken
  enter s s.program.main 0
  runLoop s fuel 0

end Exec

namespace Machine

/-- A machine that is ready to run. There are at least as many globals as the configuration says. -/
def new (s : Setting) (globals : Array Value) (token : CancelToken) (heap : Heap) : Machine :=
  { heap, token
    globals := Exec.fillUp globals s.config.globals .undefined
    allocs := s.limits.maxAllocs }

/-- Before a run: nothing is left of earlier ones but the globals. -/
def reset (s : Setting) (m : Machine) : Machine :=
  { m with
    stack := #[], cells := #[], captures := #[], frames := []
    allocs := s.limits.maxAllocs, ticks := 0, status := .running }

def run (s : Setting) (fuel : Nat) : Exec Value := fun m =>
  match Exec.start s fuel (m.reset s) with
  | .ok v m => .ok (v.getD .undefined) { m with status := .suspended }
  | .error .outOfFuel m => .error .outOfFuel m
  | .error (.failure f) m =>
    .error (.failure f) { m with status := .aborted, frames := [], stack := #[] }

def call (s : Setting) (fuel : Nat) (callee : Value) (args : List Value) : Exec Value :=
  Exec.invoke s fuel callee args

def abort (m : Machine) : Machine := { m with token := m.token.cancel }

end Machine

end ScriptEngine
