import ScriptEngine.Proofs.Machine.Variables
/-!
# Calls step by step

A call of a compiled function first collects the arguments beyond the fixed ones and then begins the
call: it takes the place of the innermost call or gets a frame of its own. An execution that is not out of
fuel is final.
-/

namespace ScriptEngine

namespace Exec

variable {s : Setting}

/-- Begins a call of a function whose arguments are the topmost `n` values. -/
def beginCall (s : Setting) (f : Function) (mayReuse : Bool) (n : Nat) : Exec Unit := fun m =>
  if n ≠ f.parameters then fault (.wrongArgumentCount (Text.decimal f.parameters) n) m
  else
    match if mayReuse then reusable s f m.frames else none with
    | some (frame, outer) => restart s f frame outer n m
    | none =>
      if s.config.maxFrames ≤ m.frames.length then fault .stackOverflow m
      else enter s f (m.stack.size - n) m

theorem callFunction_eq (s : Setting) (f : Function) (n : Nat) (mayReuse : Bool) :
    callFunction s f n mayReuse = collectRest s f n >>= beginCall s f mayReuse := by
  refine bind_congr fun n => ?_
  funext m
  rw [beginCall]
  by_cases hcount : n ≠ f.parameters
  · simp only [if_pos hcount]
    rfl
  · simp only [if_neg hcount]
    rw [bind_ok (x := get) rfl]
    cases if mayReuse then reusable s f m.frames else none with
    | some p => rfl
    | none =>
      dsimp only
      split <;> rfl

/-- The innermost frame is what a call takes the place of. -/
theorem eq_of_reusable {f : Function} {mayReuse : Bool} {frames outer : List Frame} {frame : Frame}
    (h : (if mayReuse then reusable s f frames else none) = some (frame, outer)) : frames = frame :: outer := by
  split at h
  · rw [reusable.eq_def] at h
    split at h
    · split at h <;> cases h
      rfl
    · cases h
  · cases h

/-- Calls a value with the topmost `n` values. -/
def dispatch (s : Setting) (inv : Invoke) (n : Nat) : Value → Exec Unit
  | .function f => callFunction s f n true
  | .native f => callNative s inv f n
  | other => fault (.notCallable other.typeName)

/-- Calls the value below the topmost `n` ones. -/
def callBelow (s : Setting) (inv : Invoke) (n : Nat) : Exec Unit := fun m =>
  if m.stack.size < n + 1 then fault underflow m
  else dispatch s inv n (m.stack.getD (m.stack.size - (n + 1)) .undefined) m

/-- A call first spreads its last argument, if it is to. -/
theorem call_eq (s : Setting) (inv : Invoke) (n : Nat) (isSpread : Bool) :
    call s inv n isSpread = (if isSpread then spread s n else pure n) >>= callBelow s inv := by
  have hbelow : ∀ n, (do
      let stack := (← get).stack
      if stack.size < n + 1 then fault underflow
      match stack.getD (stack.size - (n + 1)) .undefined with
      | .function f => callFunction s f n true
      | .native f => callNative s inv f n
      | other => fault (.notCallable other.typeName)) = callBelow s inv n := by
    intro n
    funext m
    rw [bind_ok (x := get) rfl, callBelow]
    by_cases hfew : m.stack.size < n + 1
    · simp only [if_pos hfew]
      rfl
    · simp only [if_neg hfew]
      cases m.stack.getD (m.stack.size - (n + 1)) .undefined <;> rfl
  cases isSpread with
  | true | false => exact bind_congr hbelow

/-- The value that a function returns. -/
def returned (n : Nat) : Exec Value := if n = 1 then pop else pure .undefined

theorem execute_ret (s : Setting) (inv : Invoke) (floor offset : Nat) (operands : List Nat) :
    execute s inv floor ⟨offset, .ret, operands⟩ = returned (operands.headD 0) >>= leave s floor := by
  rw [returned]
  by_cases hone : operands.headD 0 = 1
  · rw [if_pos hone]
    exact if_pos hone
  · rw [if_neg hone]
    exact if_neg hone

/-! ### Results -/

/-- All results of an execution have a property. -/
def Ensures {α : Type} (P : α → Prop) (x : Exec α) : Prop := ∀ m a m', x m = .ok a m' → P a

section Ensures

variable {α β : Type} {P : α → Prop}

theorem ensures_pure {a : α} (h : P a) : Ensures P (pure a) := by
  intro m b m' hr
  cases hr
  exact h

theorem ensures_bind {x : Exec β} {f : β → Exec α} (h : ∀ b, Ensures P (f b)) : Ensures P (x >>= f) := by
  intro m a m' hr
  obtain ⟨b, m1, -, hr⟩ := bind_eq_ok hr
  exact h b m1 a m' hr

end Ensures

/-- An instruction that does not end its function goes on. -/
theorem ensures_execute {inv : Invoke} {floor : Nat} {i : Instruction} (hret : i.op ≠ .ret) (hsuspend : i.op ≠ .suspend) :
    Ensures (· = Flow.goOn) (execute s inv floor i) := by
  obtain ⟨offset, op, operands⟩ := i
  cases op with
  | ret => exact absurd rfl hret
  | suspend => exact absurd rfl hsuspend
  | _ =>
    unfold execute
    dsimp only
    repeat' first
      | exact ensures_pure rfl
      | refine ensures_bind fun _ => ?_
      | split

/-- Whether an outcome is more than being out of fuel. -/
def IsFinal {α : Type} : EStateM.Result Halt Machine α → Prop
  | .error .outOfFuel _ => False
  | _ => True

theorem isFinal_ok {α : Type} (a : α) (m : Machine) : IsFinal (.ok a m) := trivial

end Exec

end ScriptEngine
