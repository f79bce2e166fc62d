import ScriptEngine.Heap
import ScriptEngine.Limits
import ScriptEngine.Value.Render
/-!
# Functions of the host

A host provides native functions beyond the builtins. What such a function does is a tree of requests
to the machine that called it: call a value, work on the heap, ask for the limits, ask to stop. The
machine answers a request, and the function goes on with the answer.
-/

namespace ScriptEngine

/-- What a function of the host does next. -/
inductive HostAction where
  | done (result : Except Failure Value)
  /-- Calls a value; a failure of the call is an answer too. -/
  | call (callee : Value) (args : List Value) (next : Except Failure Value → HostAction)
  | onHeap (op : HeapM Value) (next : Except Fault Value → HostAction)
  | limits (next : Limits → HostAction)
  | cancel (next : HostAction)

namespace HostAction

def give (v : Value) : HostAction := .done (.ok v)

def fail (fault : Fault) : HostAction := .done (.error { cause := fault })

/-- Ends with what the heap operation gives. -/
def ofHeap (op : HeapM Value) : HostAction :=
  .onHeap op fun
    | .ok v => give v
    | .error fault => fail fault

end HostAction

/-- The native functions of a host, by name. -/
abbrev Host := String → List Value → HostAction

namespace Host

def none : Host := fun name _ => .fail (.notCallable (Value.native (.host name)).typeName)

/-- Calls the first argument with the others. -/
def apply : List Value → HostAction
  | [] => .fail (.wrongArgumentCount "at least 1" 0)
  | f :: args => .call f args .done

/-- Calls the first argument with the others; a failure becomes an error that holds its text. -/
def protect : List Value → HostAction
  | [] => .fail (.wrongArgumentCount "at least 1" 0)
  | f :: args => .call f args fun
    | .ok v => .give v
    | .error failure => .give (.error (.string failure.message))

/-- Fails with the text of the first argument. -/
def raise : List Value → HostAction
  | [] => .fail (.custom "")
  | v :: _ => .ofHeap fun h => .error (.custom (v.plainText h)) h

def stop : HostAction := .cancel (.give .undefined)

/-- The limits as an array of integers. -/
def limitList : HostAction :=
  .limits fun l => .ofHeap (HeapM.array #[
    .int (Int64.ofNat l.maxString), .int (Int64.ofNat l.maxBytes), .int (Int64.ofNat l.maxArray),
    .int (Int64.ofInt l.maxAllocs)])

/-- A host with functions to call, to fail, to stop and to ask for the limits. -/
def standard : Host := fun name args =>
  match name with
  | "apply" => apply args
  | "protect" => protect args
  | "fail" => raise args
  | "cancel" => stop
  | "limits" => limitList
  | name => none name args

/-- What a call from a native function gives when no machine is behind it. -/
def detachedCall (t : CancelToken) (callee : Value) : Except Fault Value := do
  t.check
  .error (.notCallable callee.typeName)

end Host

end ScriptEngine
