import Mathlib.Logic.Relation
import ScriptEngine.Machine.Run
/-!
# Where a machine stands

A run passes through machines between two instructions, through machines in which a function of the
host is about to act, and through those in which such a function, or the host itself, is about to call
a value. `Exec.Leads` says how one such station leads to the next, down into the calls that functions
of the host make, so that everything that is true at every station is true at any time of any run.
-/

namespace ScriptEngine

/-- The machine that an execution leaves, also when it fails. -/
def machineAfter {α : Type} : EStateM.Result Halt Machine α → Machine
  | .ok _ m | .error _ m => m

/-- What is done next. -/
inductive Task where
  /-- The host decides. -/
  | idle
  /-- The next instruction, until the calls above a floor are done. -/
  | run (floor : Nat)
  /-- A function of the host acts. -/
  | act (a : HostAction)
  /-- A value is called from outside of the program. -/
  | call (callee : Value) (args : List Value)
  /-- An instruction was the last one. -/
  | stopped

/-- A machine and what is done next. -/
structure Station where
  task : Task
  machine : Machine

namespace Exec

/-- Takes the arguments of a native function off the stack, and the function. -/
def takeArguments (n : Nat) : Exec (Array Value) := do
  checkToken
  let args ← popMany n
  discard pop
  return args

/-- Puts a value and the arguments that it is called with on the stack. -/
def offer (s : Setting) (callee : Value) (args : List Value) : Exec Unit := do
  checkToken
  push s callee
  pushAll s args

/-- The next instruction calls a function of the host, which starts to act in another machine. -/
def Asks (s : Setting) (m : Machine) (a : HostAction) (m' : Machine) : Prop :=
  ∃ i m1 n m2 name args, (do tick s; fetch) m = .ok i m1 ∧ i.op = .call ∧
    (if i.second != 0 then spread s i.first else pure i.first) m1 = .ok n m2 ∧
    n < m2.stack.size ∧ m2.stack.getD (m2.stack.size - (n + 1)) .undefined = .native (.host name) ∧
    takeArguments n m2 = .ok args m' ∧ a = s.host name args.toList

/-- One station leads to the next. The host calls values as `offers` says. -/
inductive Leads (s : Setting) (offers : Value → List Value → Prop) : Station → Station → Prop where
  /-- The program is run from its start. -/
  | start {m m1 : Machine} : (do checkToken; enter s s.program.main 0) (m.reset s) = .ok () m1 →
      Leads s offers ⟨.idle, m⟩ ⟨.run 0, m1⟩
  | ran (m : Machine) (fuel : Nat) : Leads s offers ⟨.idle, m⟩ ⟨.idle, machineAfter (m.run s fuel)⟩
  /-- The host calls a value. -/
  | offer {callee : Value} {args : List Value} (m : Machine) : offers callee args →
      Leads s offers ⟨.idle, m⟩ ⟨.call callee args, m⟩
  | called {callee : Value} {args : List Value} (m : Machine) (fuel : Nat) : offers callee args →
      Leads s offers ⟨.idle, m⟩ ⟨.idle, machineAfter (m.call s fuel callee args)⟩
  | abort (m : Machine) : Leads s offers ⟨.idle, m⟩ ⟨.idle, m.abort⟩
  /-- An instruction, with all that it calls. -/
  | step {m m1 : Machine} {fuel floor : Nat} : step s (invoke s fuel) floor m = .ok .goOn m1 →
      Leads s offers ⟨.run floor, m⟩ ⟨.run floor, m1⟩
  | stop (m : Machine) (fuel floor : Nat) :
      Leads s offers ⟨.run floor, m⟩ ⟨.stopped, machineAfter (step s (invoke s fuel) floor m)⟩
  | ask {m m1 : Machine} {floor : Nat} {a : HostAction} : Asks s m a m1 →
      Leads s offers ⟨.run floor, m⟩ ⟨.act a, m1⟩
  /-- A function of the host calls a value. -/
  | callback (m : Machine) (callee : Value) (args : List Value) (next : Except Failure Value → HostAction) :
      Leads s offers ⟨.act (.call callee args next), m⟩ ⟨.call callee args, m⟩
  | answer {m m1 : Machine} {fuel : Nat} {callee v : Value} {args : List Value}
      {next : Except Failure Value → HostAction} : (do checkToken; invoke s fuel callee args) m = .ok v m1 →
      Leads s offers ⟨.act (.call callee args next), m⟩ ⟨.act (next (.ok v)), m1⟩
  | refuse {m m1 : Machine} {fuel : Nat} {callee : Value} {args : List Value} {f : Failure}
      {next : Except Failure Value → HostAction} :
      (do checkToken; invoke s fuel callee args) m = .error (.failure f) m1 →
      Leads s offers ⟨.act (.call callee args next), m⟩ ⟨.act (next (.error f)), m1⟩
  | heap {m : Machine} {op : HeapM Value} {v : Value} {h : Heap} {next : Except Fault Value → HostAction} :
      op m.heap = .ok v h → Leads s offers ⟨.act (.onHeap op next), m⟩ ⟨.act (next (.ok v)), { m with heap := h }⟩
  | heapFault {m : Machine} {op : HeapM Value} {f : Fault} {h : Heap} {next : Except Fault Value → HostAction} :
      op m.heap = .error f h →
      Leads s offers ⟨.act (.onHeap op next), m⟩ ⟨.act (next (.error f)), { m with heap := h }⟩
  | limits (m : Machine) (next : Limits → HostAction) :
      Leads s offers ⟨.act (.limits next), m⟩ ⟨.act (next s.limits), m⟩
  | cancel (m : Machine) (next : HostAction) :
      Leads s offers ⟨.act (.cancel next), m⟩ ⟨.act next, { m with token := m.token.cancel }⟩
  /-- A function of the program is entered. -/
  | enter {m m1 : Machine} {f : Function} {args : List Value} :
      (do Exec.offer s (.function f) args; callFunction s f args.length false) m = .ok () m1 →
      Leads s offers ⟨.call (.function f) args, m⟩ ⟨.run m.frames.length, m1⟩
  /-- A function of the host is called from outside of the program. -/
  | native {m m1 : Machine} {name : String} {args : List Value} {taken : Array Value} :
      (do Exec.offer s (.native (.host name)) args; takeArguments args.length) m = .ok taken m1 →
      Leads s offers ⟨.call (.native (.host name)) args, m⟩ ⟨.act (s.host name taken.toList), m1⟩

/-- A station that an idle machine comes to. -/
def Reached (s : Setting) (offers : Value → List Value → Prop) (m : Machine) : Station → Prop :=
  Relation.ReflTransGen (Leads s offers) ⟨.idle, m⟩

end Exec

end ScriptEngine
