import ScriptEngine.Failure
/-!
# Limits and cancellation

What a run may build and how it is stopped. Sizes of texts count UTF-8 bytes.
-/

namespace ScriptEngine

/-- Ceilings on what a run builds; a negative number of allocations means no ceiling. -/
structure Limits where
  maxString : Nat := 2147483647
  maxBytes : Nat := 2147483647
  maxArray : Nat := 2147483647
  maxAllocs : Int := -1
  deriving Repr, DecidableEq, Inhabited

namespace Limits

def checkString (l : Limits) (n : Nat) : Except Fault Unit :=
  if l.maxString < n then .error .stringLimit else .ok ()

def checkBytes (l : Limits) (n : Nat) : Except Fault Unit :=
  if l.maxBytes < n then .error .bytesLimit else .ok ()

def checkArray (l : Limits) (n : Nat) : Except Fault Unit :=
  if l.maxArray < n then .error .arrayLimit else .ok ()

end Limits

/-- A request to stop, shared by a host and what it runs. It may also carry a deadline, given as the
milliseconds that are left; a deadline with none left has passed. -/
structure CancelToken where
  requested : Bool := false
  timeLeft : Option Nat := none
  deriving Repr, DecidableEq, Inhabited

namespace CancelToken

def cancel (t : CancelToken) : CancelToken := { t with requested := true }

/-- Whether to stop: a request was made or the deadline has passed. -/
def isCancelled (t : CancelToken) : Bool := t.requested || t.timeLeft == some 0

def check (t : CancelToken) : Except Fault Unit :=
  if t.isCancelled then .error .aborted else .ok ()

/-- Waits for some milliseconds; a request to stop, or a deadline that passes meanwhile, ends the
wait early. -/
def sleep (t : CancelToken) (duration : Nat) : Except Fault Unit := do
  t.check
  if t.timeLeft.any (· < duration) then .error .aborted else .ok ()

end CancelToken

end ScriptEngine
