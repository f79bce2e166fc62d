import ScriptEngine.Proofs.Machine.Bounds
/-!
# Accesses within bounds

The strict machine works like the machine, but an access to a place that an array does not have is a
crash, and so is a size below zero: where the machine has checked before, or need not check, the strict
one takes its word for it. Main statement: whatever code it runs, the strict machine does what the
machine does, so it never crashes, and all sizes stay as they should (`Machine.stays_within_bounds`).
-/

namespace ScriptEngine

open Exec

variable {code : Array UInt8} {f : Function} {m m' : Machine} {i n start : Nat}

/-- Execution that may crash, which is no outcome. -/
def Strict (α : Type) := Machine → Option (EStateM.Result Halt Machine α)

namespace Strict

variable {α β : Type} {s : Setting}

/-- An execution that makes no access of its own. -/
def lift (x : Exec α) : Strict α := fun m => some (x m)

instance : MonadLift Exec Strict := ⟨lift⟩

/-- Goes on with what an execution gives. -/
def andThen (x : Strict α) (f : α → Strict β) : Strict β := fun m =>
  match x m with
  | none => none
  | some (.ok a m) => f a m
  | some (.error e m) => some (.error e m)

instance : Monad Strict where
  pure a := lift (pure a)
  bind := andThen

/-- An access; it crashes when there is nothing. -/
def access (x : Option α) : Strict α := fun m => x.map (.ok · m)

/-! ### Accesses -/

/-- The difference of two sizes. -/
def minus (a b : Nat) : Option Nat := if b ≤ a then some (a - b) else none

/-- Writes to a place. -/
def put (xs : Array α) (i : Nat) (x : α) : Option (Array α) :=
  if i < xs.size then some (xs.setIfInBounds i x) else none

/-- Cuts an array in two. -/
def splitOff (xs : Array α) (start : Nat) : Option (Array α × Array α) :=
  if start ≤ xs.size then some (xs.shrink start, xs.extract start xs.size) else none

/-- Takes the cells from the places of a range. -/
def clearRange (cells : Array (Option Addr)) (first last : Nat) : Option (Array (Option Addr)) :=
  if first ≤ last ∧ last ≤ cells.size then
    some ((last - first).fold (fun i _ cells => cells.setIfInBounds (first + i) none) cells)
  else none

/-- The number in the `width` bytes at `start`, after the digits `high`. -/
def number (code : Array UInt8) : (start width high : Nat) → Option Nat
  | _, 0, high => some high
  | start, width + 1, high => do
    let byte ← code[start]?
    number code (start + 1) width (high * 256 + byte.toNat)

/-- The operands of the given widths at `start`. -/
def operands (code : Array UInt8) : (start : Nat) → List Nat → Option (List Nat)
  | _, [] => some []
  | start, w :: ws => do
    let first ← number code start w 0
    let rest ← operands code (start + w) ws
    return first :: rest

/-! ### The machine -/

/-- Takes the topmost `n` values off the stack. -/
def popMany (n : Nat) : Strict (Array Value) := do
  let m ← (get : Exec Machine)
  if m.stack.size < n then fault underflow
  let (rest, items) ← access (splitOff m.stack (m.stack.size - n))
  (set { m with stack := rest } : Exec Unit)
  return items

/-- The value of a local variable. -/
def getLocal (index : Nat) : Strict Value := do
  let place ← localPlace index
  match ← cellAt place with
  | some cell => inspect (·.cell cell)
  | none => access (← (get : Exec Machine)).stack[place]?

/-- Sets a local variable. -/
def setLocal (index : Nat) (v : Value) : Strict Unit := do
  let place ← localPlace index
  match ← cellAt place with
  | some cell => onHeap fun h => .ok () (h.setCell cell v)
  | none =>
    let m ← (get : Exec Machine)
    let stack ← access (put m.stack place v)
    (set { m with stack } : Exec Unit)

/-- Makes a new local variable. -/
def defineLocal (index : Nat) (v : Value) : Strict Unit := do
  let place ← localPlace index
  let m ← (get : Exec Machine)
  let stack ← access (put m.stack place v)
  (set { m with stack, cells := m.cells.setIfInBounds place none } : Exec Unit)

/-- The cell of a local variable. -/
def captureLocal (index : Nat) : Strict Addr := do
  let place ← localPlace index
  match ← cellAt place with
  | some cell => return cell
  | none =>
    let v ← access (← (get : Exec Machine)).stack[place]?
    let cell ← onHeap fun h =>
      let (a, h) := h.newCell v
      .ok a h
    let m ← (get : Exec Machine)
    let cells ← access (put (fillUp m.cells (place + 1) none) place (some cell))
    (set { m with cells } : Exec Unit)
    return cell

/-- Makes room for the local variables of a function. -/
def reserveLocals (s : Setting) (f : Function) (base : Nat) : Strict Unit := do
  let m ← (get : Exec Machine)
  let top := base + f.locals
  if s.config.stackSize < top then fault .stackOverflow
  let cells ← access (clearRange (fillUp m.cells top none) base top)
  (set { m with stack := fillUp m.stack top .undefined, cells } : Exec Unit)

/-- Enters a function. -/
def enter (s : Setting) (f : Function) (base : Nat) : Strict Unit := do
  reserveLocals s f base
  (modify fun m => { m with frames := { func := f, base } :: m.frames } : Exec Unit)

/-- Collects the arguments beyond the fixed ones. -/
def collectRest (s : Setting) (f : Function) (n : Nat) : Strict Nat := do
  if f.variadic then
    let fixed := f.parameters - 1
    if n < fixed then fault (.wrongArgumentCount s!"at least {fixed}" n)
    let rest ← popMany (← access (minus n fixed))
    alloc
    push s (← onHeap (HeapM.array rest))
    return fixed + 1
  else return n

/-- Starts the innermost frame again. -/
def restart (s : Setting) (f : Function) (frame : Frame) (outer : List Frame) (n : Nat) : Strict Unit := do
  let m ← (get : Exec Machine)
  let (rest, args) ← access (splitOff m.stack (← access (minus m.stack.size n)))
  (set { m with
    frames := { frame with func := f, next := 0 } :: outer
    stack := rest.shrink frame.base ++ args } : Exec Unit)
  reserveLocals s f frame.base

/-- Starts a call whose arguments are counted. -/
def beginCall (s : Setting) (f : Function) (mayReuse : Bool) (n : Nat) : Strict Unit := fun m =>
  if n ≠ f.parameters then lift (fault (.wrongArgumentCount (Text.decimal f.parameters) n)) m
  else
    match if mayReuse then reusable s f m.frames else none with
    | some (frame, outer) => restart s f frame outer n m
    | none =>
      if s.config.maxFrames ≤ m.frames.length then lift (fault .stackOverflow) m
      else (access (minus m.stack.size n) >>= enter s f) m

/-- Calls a compiled function with the topmost `n` values. -/
def callFunction (s : Setting) (f : Function) (n : Nat) (mayReuse : Bool) : Strict Unit := do
  let n ← collectRest s f n
  beginCall s f mayReuse n

/-- Does what a function of the host asks for. -/
def perform (s : Setting) (invoke : Value → List Value → Strict Value) : HostAction → Strict Value
  | .done (.ok v) => pure v
  | .done (.error f) => lift (throw (.failure f))
  | .call callee args next => fun m =>
    match (do checkToken; invoke callee args : Strict Value) m with
    | none => none
    | some (.ok v m) => perform s invoke (next (.ok v)) m
    | some (.error (.failure f) m) => perform s invoke (next (.error f)) m
    | some (.error .outOfFuel m) => some (.error .outOfFuel m)
  | .onHeap op next => fun m =>
    match op m.heap with
    | .ok v h => perform s invoke (next (.ok v)) { m with heap := h }
    | .error f h => perform s invoke (next (.error f)) { m with heap := h }
  | .limits next => perform s invoke (next s.limits)
  | .cancel next => fun m => perform s invoke next { m with token := m.token.cancel }

/-- Calls a native function with the topmost `n` values. -/
def callNative (s : Setting) (invoke : Value → List Value → Strict Value) (f : Native) (n : Nat) : Strict Unit := do
  checkToken
  let args ← popMany n
  (discard pop : Exec Unit)
  let v ←
    match f with
    | .builtin b => lift (onHeap (b.call s.limits args.toList))
    | .host name => perform s invoke (s.host name args.toList)
  alloc
  push s v

/-- Calls the value below the topmost `n` ones with these. -/
def call (s : Setting) (invoke : Value → List Value → Strict Value) (n : Nat) (isSpread : Bool) : Strict Unit := do
  let n ← (if isSpread then spread s n else pure n : Exec Nat)
  let stack := (← (get : Exec Machine)).stack
  if stack.size < n + 1 then fault underflow
  match ← access stack[stack.size - (n + 1)]? with
  | .function f => callFunction s f n true
  | .native f => callNative s invoke f n
  | other => fault (.notCallable other.typeName)

/-- A new function from a constant and the last `n` captured cells. -/
def makeClosure (s : Setting) (index n : Nat) : Strict Unit := do
  match s.program.constants[index]? with
  | some (.function f) =>
    let m ← (get : Exec Machine)
    if m.captures.size < n then fault (.custom "missing captured cells")
    let (rest, captured) ← access (splitOff m.captures (m.captures.size - n))
    (set { m with captures := rest } : Exec Unit)
    alloc
    push s (← onHeap (HeapM.function { f with captured }))
  | _ => fault (.custom s!"constant {index} is not a function")

/-- Takes a value and the `n` selectors above it off the stack. -/
def popSelectors (n : Nat) : Strict (Value × List Value) := do
  let selectors ← popMany n
  let v ← pop
  return (v, selectors.toList)

/-- Reads the next instruction of the innermost frame. Only its length is checked before its operands
are read. -/
def fetch : Strict Instruction := fun m =>
  match m.frames with
  | [] => some (.error (.failure { cause := .custom "no active frame" }) m)
  | f :: rest =>
    match f.func.code[f.next]? with
    | none => some (.error (.failure { cause := .custom "instruction pointer out of range" }) m)
    | some byte =>
      match Opcode.ofByte? byte with
      | none => some (.error (.failure { cause := .invalidInstruction byte }) m)
      | some op =>
        if f.func.code.size < f.next + op.length then
          some (.error (.failure { cause := .invalidInstruction byte }) m)
        else
          (operands f.func.code (f.next + 1) op.widths).map fun operands =>
            .ok ⟨f.next, op, operands⟩
              { m with frames := { f with current := f.next, next := f.next + op.length } :: rest }

/-- Executes an instruction. Those that make no access of their own are executed as they are. -/
def execute (s : Setting) (invoke : Value → List Value → Strict Value) (floor : Nat) (i : Instruction) :
    Strict Flow := do
  match i.op with
  | .array =>
    ofExcept (s.limits.checkArray i.first)
    let items ← popMany i.first
    alloc
    push s (← onHeap (HeapM.array items))
  | .map =>
    let items ← popMany i.first
    let entries ← inspect fun h => pairUp h items.toList {}
    alloc
    push s (← onHeap (HeapM.map entries))
  | .call => call s invoke i.first (i.second != 0)
  | .setSelGlobal =>
    let (v, selectors) ← popSelectors i.second
    assignPart (← getGlobal i.first) v selectors
  | .getLocal => push s (← getLocal i.first)
  | .setLocal => setLocal i.first (← pop)
  | .defineLocal => defineLocal i.first (← pop)
  | .setSelLocal =>
    let (v, selectors) ← popSelectors i.second
    assignPart (← getLocal i.first) v selectors
  | .captureLocal =>
    let cell ← captureLocal i.first
    (modify fun m => { m with captures := m.captures.push cell } : Exec Unit)
  | .setSelFree =>
    let (v, selectors) ← popSelectors i.second
    let cell ← captured i.first
    assignPart (← inspect (·.cell cell)) v selectors
  | .closure => makeClosure s i.first i.second
  | _ => return ← Exec.execute s (fun _ _ => throw .outOfFuel) floor i
  return .goOn

/-- One step. -/
def step (s : Setting) (invoke : Value → List Value → Strict Value) (floor : Nat) : Strict Flow := do
  tick s
  let i ← fetch
  execute s invoke floor i

/-- Calls a value on top of the calls that are active. -/
def callValue (s : Setting) (go : Nat → Strict (Option Value)) (invoke : Value → List Value → Strict Value)
    (callee : Value) (args : List Value) : Strict Value := do
  checkToken
  let floor := (← (get : Exec Machine)).frames.length
  push s callee
  pushAll s args
  match callee with
  | .function f =>
    callFunction s f args.length false
    return (← go floor).getD .undefined
  | .native f =>
    callNative s invoke f args.length
    pop
  | other => fault (.notCallable other.typeName)

/-- Runs a body; after a failure stack and frames are as before. -/
def guarded (body : Strict Value) : Strict Value := fun m =>
  match body m with
  | none => none
  | some (.ok v m₁) => some (.ok v m₁)
  | some (.error (.failure f) m₁) => some (.error (.failure f) (unwind m.stack.size m.frames.length m₁))
  | some (.error .outOfFuel m₁) => some (.error .outOfFuel m₁)

mutual

/-- Runs until the calls above the floor are done. -/
def runLoop (s : Setting) : (fuel : Nat) → (floor : Nat) → Strict (Option Value)
  | 0, _ => lift (throw .outOfFuel)
  | fuel + 1, floor => fun m =>
    match step s (invoke s fuel) floor m with
    | none => none
    | some (.ok .goOn m) => runLoop s fuel floor m
    | some (.ok (.returned v) m) => some (.ok (some v) m)
    | some (.ok .suspended m) => some (.ok none m)
    | some (.error .outOfFuel m) => some (.error .outOfFuel m)
    | some (.error (.failure f) m) => some (.error (.failure (f.addTrace (places s floor m))) m)

/-- Calls a value from outside or from a native function. -/
def invoke (s : Setting) : (fuel : Nat) → Value → List Value → Strict Value
  | 0, _, _ => lift (throw .outOfFuel)
  | fuel + 1, callee, args => guarded (callValue s (runLoop s fuel) (invoke s fuel) callee args)

end

/-- Runs the program from its start. -/
def run (s : Setting) (fuel : Nat) : Strict Value := fun m =>
  match (do checkToken; enter s s.program.main 0; runLoop s fuel 0 : Strict (Option Value)) (m.reset s) with
  | none => none
  | some (.ok v m) => some (.ok (v.getD .undefined) { m with status := .suspended })
  | some (.error .outOfFuel m) => some (.error .outOfFuel m)
  | some (.error (.failure f) m) =>
    some (.error (.failure f) { m with status := .aborted, frames := [], stack := #[] })

/-! ### The strict machine does not crash -/

/-- In a machine, strict execution does what execution does. -/
def FollowsAt (m : Machine) (x : Strict α) (y : Exec α) : Prop := x m = some (y m)

/-- Strict execution does what execution does. -/
def Follows (x : Strict α) (y : Exec α) : Prop := ∀ m, FollowsAt m x y

theorem FollowsAt.bind {x : Strict α} {y : Exec α} {f : α → Strict β} {g : α → Exec β} (h : FollowsAt m x y)
    (hf : ∀ a m', y m = .ok a m' → FollowsAt m' (f a) (g a)) : FollowsAt m (x >>= f) (y >>= g) := by
  show andThen x f m = some ((y >>= g) m)
  rw [andThen, h]
  cases hy : y m with
  | ok a m' =>
    rw [bind_ok hy]
    exact hf a m' hy
  | error e m' =>
    rw [bind_error hy]

theorem Follows.lift (x : Exec α) : Follows (lift x) x := fun _ => rfl

theorem Follows.bind {x : Strict α} {y : Exec α} {f : α → Strict β} {g : α → Exec β} (h : Follows x y)
    (hf : ∀ a, Follows (f a) (g a)) : Follows (x >>= f) (y >>= g) :=
  fun m => (h m).bind fun a m' _ => hf a m'

/-- Execution before strict execution. -/
theorem Follows.after (x : Exec α) {f : α → Strict β} {g : α → Exec β} (hf : ∀ a, Follows (f a) (g a)) :
    Follows (Strict.lift x >>= f) (x >>= g) := (Follows.lift x).bind hf

/-- Strict execution before execution. -/
theorem Follows.before {x : Strict α} {y : Exec α} (h : Follows x y) (f : α → Exec β) :
    Follows (x >>= fun a => Strict.lift (f a)) (y >>= f) := h.bind fun a => .lift (f a)

/-- An access to what is there. -/
theorem Follows.access {a : α} {f : α → Strict β} {y : Exec β} (h : Follows (f a) y) :
    Follows (Strict.access (some a) >>= f) y := h

/-! ### Accesses -/

theorem splitOff_of_le {xs : Array α} (h : start ≤ xs.size) :
    splitOff xs start = some (xs.shrink start, xs.extract start xs.size) := if_pos h

theorem put_of_lt {xs : Array α} (h : i < xs.size) (x : α) : put xs i x = some (xs.setIfInBounds i x) :=
  if_pos h

theorem minus_of_le {a b : Nat} (h : b ≤ a) : minus a b = some (a - b) := if_pos h

theorem clearRange_of_le {cells : Array (Option Addr)} {first last : Nat} (hn : last - first = n)
    (h : first ≤ last ∧ last ≤ cells.size) :
    clearRange cells first last = some (n.fold (fun i _ cells => cells.setIfInBounds (first + i) none) cells) := by
  subst hn
  exact if_pos h

theorem getElem?_of_lt {xs : Array α} (h : i < xs.size) (x : α) : xs[i]? = some (xs.getD i x) := by
  rw [Array.getD_eq_getD_getElem?, Array.getElem?_eq_getElem h, Option.getD_some]

theorem number_eq {width : Nat} (h : start + width ≤ code.size) (high : Nat) :
    number code start width high = some (Instruction.numberAt code start width high) := by
  induction width generalizing start high with
  | zero => rfl
  | succ width ih =>
    rw [number, getElem?_of_lt (Nat.lt_of_lt_of_le (Nat.lt_add_of_pos_right (Nat.succ_pos width)) h) 0]
    exact ih (by omega) _

/-- Operands for which there is room are read. -/
theorem operands_eq (at_ : Nat) {ws : List Nat} (hws : ∀ w ∈ ws, w ∈ [1, 2, 4])
    (h : start + ws.foldl (· + ·) at_ ≤ code.size) :
    operands code (start + at_) ws = some (Instruction.operandsAt code (start + at_) ws) := by
  induction ws generalizing at_ with
  | nil => rfl
  | cons w ws ih =>
    have hroom := Instruction.le_foldl_add ws (at_ + w)
    rw [List.foldl_cons] at h
    rw [operands, number_eq (by omega), Nat.add_assoc, ih (at_ + w) (fun v hv => hws v (.tail _ hv)) h,
      Instruction.operandsAt, Instruction.operandAt_eq _ _ (hws w (.head _)), Nat.add_assoc]
    rfl

/-! ### Operations -/

theorem follows_popMany (n : Nat) : Follows (popMany n) (Exec.popMany n) := by
  intro m
  rw [FollowsAt, Exec.popMany]
  by_cases hfew : m.stack.size < n
  · rw [if_pos hfew]
    show (if m.stack.size < n then _ else _ : Strict _) m = _
    rw [if_pos hfew]
    rfl
  · rw [if_neg hfew]
    show (if m.stack.size < n then _ else _ : Strict _) m = _
    rw [if_neg hfew]
    simp only [splitOff_of_le (Nat.sub_le m.stack.size n)]
    rfl

/-- What follows the place of a variable, which is a place of the stack. -/
theorem follows_atPlace {index : Nat} {f : Nat → Strict α} {g : Nat → Exec α}
    (h : ∀ m place, place < m.stack.size → FollowsAt m (f place) (g place)) :
    Follows (lift (localPlace index) >>= f) (localPlace index >>= g) := by
  intro m
  refine (Follows.lift _ m).bind fun place m' hplace => ?_
  cases hframes : m.frames with
  | nil => cases (localPlace_none hframes).symm.trans hplace
  | cons frame rest =>
    rcases Nat.lt_or_ge (frame.base + index) m.stack.size with hlt | hge
    · cases (localPlace_eq hframes hlt).symm.trans hplace
      exact h _ _ hlt
    · cases (localPlace_error hframes hge).symm.trans hplace

theorem follows_getLocal (index : Nat) : Follows (getLocal index) (Exec.getLocal index) := by
  refine follows_atPlace fun m place hplace => ?_
  refine (Follows.lift (cellAt place) m).bind fun cell m' hcell => ?_
  cases hcell
  cases (m.cells[place]?).join with
  | some cell => rfl
  | none =>
    show access m.stack[place]? m = _
    rw [getElem?_of_lt hplace .undefined]
    rfl

theorem follows_setLocal (index : Nat) (v : Value) : Follows (setLocal index v) (Exec.setLocal index v) := by
  refine follows_atPlace fun m place hplace => ?_
  refine (Follows.lift (cellAt place) m).bind fun cell m' hcell => ?_
  cases hcell
  cases (m.cells[place]?).join with
  | some cell => rfl
  | none =>
    show (access (put m.stack place v) >>= _) m = _
    rw [put_of_lt hplace]
    rfl

theorem follows_defineLocal (index : Nat) (v : Value) : Follows (defineLocal index v) (Exec.defineLocal index v) := by
  refine follows_atPlace fun m place hplace => ?_
  show (access (put m.stack place v) >>= _) m = _
  rw [put_of_lt hplace]
  rfl

theorem follows_captureLocal (index : Nat) : Follows (captureLocal index) (Exec.captureLocal index) := by
  refine follows_atPlace fun m place hplace => ?_
  refine (Follows.lift (cellAt place) m).bind fun cell m' hcell => ?_
  cases hcell
  cases (m.cells[place]?).join with
  | some cell => rfl
  | none =>
    show (access m.stack[place]? >>= _) m = _
    rw [getElem?_of_lt hplace .undefined]
    show (access (put (fillUp m.cells (place + 1) none) place _) >>= _) _ = _
    rw [put_of_lt (by rw [size_fillUp]; omega)]
    rfl

theorem follows_reserveLocals (f : Function) (base : Nat) :
    Follows (reserveLocals s f base) (Exec.reserveLocals s f base) := by
  intro m
  rw [FollowsAt, Exec.reserveLocals]
  by_cases hfull : s.config.stackSize < base + f.locals
  · rw [if_pos hfull]
    show (if s.config.stackSize < base + f.locals then _ else _ : Strict _) m = _
    rw [if_pos hfull]
    rfl
  · rw [if_neg hfull]
    show (if s.config.stackSize < base + f.locals then _ else _ : Strict _) m = _
    rw [if_neg hfull]
    have hroom : base ≤ base + f.locals ∧ base + f.locals ≤ (Exec.fillUp m.cells (base + f.locals) none).size := by
      rw [Exec.size_fillUp]
      omega
    rw [clearRange_of_le (Nat.add_sub_cancel_left ..) hroom]
    rfl

theorem follows_enter (f : Function) (base : Nat) : Follows (enter s f base) (Exec.enter s f base) :=
  (follows_reserveLocals f base).before _

theorem follows_collectRest (f : Function) (n : Nat) : Follows (collectRest s f n) (Exec.collectRest s f n) := by
  rw [collectRest, Exec.collectRest]
  split
  · by_cases hfew : n < f.parameters - 1
    · simp only [if_pos hfew]
      exact .lift _
    · simp only [if_neg hfew, minus_of_le (Nat.not_lt.1 hfew)]
      refine .access ((follows_popMany _).bind fun rest => ?_)
      exact .after _ fun _ => .after _ fun v => .after _ fun _ => .lift _
  · exact .lift _

/-- Collecting arguments leaves as many values on the stack as it says. -/
theorem le_of_collectRest {k : Nat} (hn : n ≤ m.stack.size) (h : Exec.collectRest s f n m = .ok k m') :
    k ≤ m'.stack.size := by
  rw [Exec.collectRest] at h
  split at h
  · dsimp only at h
    split at h
    · cases h
    · next hmany =>
      obtain ⟨rest, m₁, hpop, h⟩ := bind_eq_ok h
      obtain ⟨⟨⟩, m2, halloc, h⟩ := bind_eq_ok h
      obtain ⟨v, m3, hheap, h⟩ := bind_eq_ok h
      obtain ⟨⟨⟩, m4, hpush, h⟩ := bind_eq_ok h
      obtain ⟨-, -, rfl⟩ := popMany_eq_ok hpop
      obtain ⟨-, rfl⟩ := alloc_eq_ok halloc
      obtain ⟨_, -, rfl⟩ := onHeap_eq_ok hheap
      obtain ⟨-, rfl⟩ := push_eq_ok hpush
      cases h
      simp only [Array.size_push, Array.size_shrink]
      omega
  · cases h
    exact hn

theorem follows_restart (f : Function) (frame : Frame) (outer : List Frame) (hn : n ≤ m.stack.size) :
    FollowsAt m (restart s f frame outer n) (Exec.restart s f frame outer n) := by
  show (access (minus m.stack.size n) >>= _) m = _
  rw [minus_of_le hn]
  show (access (splitOff m.stack (m.stack.size - n)) >>= _) m = _
  rw [splitOff_of_le (Nat.sub_le _ _)]
  exact follows_reserveLocals f frame.base _

theorem follows_callFunction {mayReuse : Bool} (hn : n ≤ m.stack.size) :
    FollowsAt m (callFunction s f n mayReuse) (Exec.callFunction s f n mayReuse) := by
  rw [Exec.callFunction_eq]
  refine (follows_collectRest f n m).bind fun k m' hcollect => ?_
  have hk := le_of_collectRest hn hcollect
  rw [FollowsAt, beginCall, Exec.beginCall]
  by_cases hcount : k ≠ f.parameters
  · simp only [if_pos hcount]
    rfl
  · simp only [if_neg hcount]
    cases if mayReuse then reusable s f m'.frames else none with
    | some p => exact follows_restart f p.1 p.2 hk
    | none =>
      dsimp only
      split
      · rfl
      · rw [minus_of_le hk]
        exact follows_enter f _ m'

variable {inv : Value → List Value → Strict Value} {inv' : Invoke}

section

variable (h : ∀ v args, Follows (inv v args) (inv' v args))
include h

theorem follows_perform (a : HostAction) : Follows (perform s inv a) (Exec.perform s inv' a) := by
  induction a with
  | done r =>
    cases r <;> exact .lift _
  | call callee args next ih =>
    intro m
    have hcall : FollowsAt m (do Exec.checkToken; inv callee args) (do Exec.checkToken; inv' callee args) :=
      Follows.after Exec.checkToken (fun _ => h callee args) m
    simp only [FollowsAt, perform, Exec.perform]
    rw [hcall]
    cases (do Exec.checkToken; inv' callee args) m with
    | ok v m₁ => exact ih (.ok v) m₁
    | error e m₁ =>
      cases e with
      | failure f => exact ih (.error f) m₁
      | outOfFuel => rfl
  | onHeap op next ih =>
    intro m
    simp only [FollowsAt, perform, Exec.perform, Exec.takeHeap]
    cases op m.heap with
    | ok v h1 => exact ih (.ok v) _
    | error f h1 => exact ih (.error f) _
  | limits next ih => exact ih s.limits
  | cancel next ih => exact fun m => ih _

theorem follows_callNative (f : Native) (n : Nat) : Follows (callNative s inv f n) (Exec.callNative s inv' f n) := by
  refine .after _ fun _ => (follows_popMany n).bind fun args => .after _ fun _ => ?_
  have hend : ∀ v, Follows (do alloc; push s v) (do alloc; push s v) :=
    fun v => .after _ fun _ => .lift _
  cases f with
  | builtin b => exact .after _ hend
  | host name => exact (follows_perform h _).bind hend

theorem follows_call (n : Nat) (isSpread : Bool) : Follows (call s inv n isSpread) (Exec.call s inv' n isSpread) := by
  rw [Exec.call_eq]
  refine .after _ fun n m => ?_
  rw [FollowsAt, callBelow]
  show (if m.stack.size < n + 1 then _ else _ : Strict Unit) m = _
  by_cases hfew : m.stack.size < n + 1
  · rw [if_pos hfew, if_pos hfew]
    rfl
  · rw [if_neg hfew, if_neg hfew]
    have hlt : m.stack.size - (n + 1) < m.stack.size := by omega
    rw [getElem?_of_lt hlt .undefined]
    generalize m.stack.getD (m.stack.size - (n + 1)) .undefined = callee
    cases callee with
    | function f => exact follows_callFunction (by omega)
    | native f => exact follows_callNative h f n m
    | _ => rfl

end

theorem follows_makeClosure (index n : Nat) : Follows (makeClosure s index n) (Exec.makeClosure s index n) := by
  rw [makeClosure, Exec.makeClosure]
  cases s.program.constants[index]? with
  | none => exact .lift _
  | some v =>
    cases v with
    | function f =>
      intro m
      refine (Follows.lift get m).bind fun m₁ m' hget => ?_
      cases hget
      by_cases hfew : m.captures.size < n
      · simp only [if_pos hfew]
        rfl
      · simp only [if_neg hfew, splitOff_of_le (Nat.sub_le m.captures.size n)]
        exact Follows.after alloc (fun _ => .after (onHeap _) fun v => .lift (push s v))
          { m with captures := m.captures.shrink (m.captures.size - n) }
    | _ => exact .lift _

theorem follows_popSelectors (n : Nat) : Follows (popSelectors n) (Exec.popSelectors n) :=
  (follows_popMany n).bind fun _ => .after _ fun _ => .lift _

theorem follows_fetch : Follows fetch Exec.fetch := by
  intro m
  rw [FollowsAt, fetch, Exec.fetch]
  cases m.frames with
  | nil => rfl
  | cons f rest =>
    dsimp only
    cases hbyte : f.func.code[f.next]? with
    | none => rfl
    | some byte =>
      dsimp only
      rw [Instruction.fetchAt]
      cases Opcode.ofByte? byte with
      | none => rfl
      | some op =>
        have hlength : f.next + op.length = f.next + 1 + op.widths.foldl (· + ·) 0 := by
          rw [Opcode.length, Opcode.operandBytes, Nat.add_assoc]
        dsimp only
        by_cases hshort : f.func.code.size < f.next + op.length
        · rw [if_pos hshort, Option.bind_eq_bind, Option.bind_some, if_neg (Nat.not_le.2 hshort)]
        · have hroom := Nat.not_lt.1 hshort
          rw [if_neg hshort, operands_eq 0 (by cases op <;> decide) (hlength ▸ hroom),
            Option.bind_eq_bind, Option.bind_some, if_pos hroom]
          rfl

theorem follows_execute (h : ∀ v args, Follows (inv v args) (inv' v args)) (floor : Nat) (i : Instruction) :
    Follows (execute s inv floor i) (Exec.execute s inv' floor i) := by
  obtain ⟨offset, op, operands⟩ := i
  have hpush : ∀ v, Follows (do push s v; return Flow.goOn) (do push s v; return Flow.goOn) :=
    fun v => .after _ fun _ => .lift _
  have hassign : ∀ target v selectors, Follows (do assignPart target v selectors; return Flow.goOn)
      (do assignPart target v selectors; return Flow.goOn) := fun _ _ _ => .after _ fun _ => .lift _
  cases op with
  | array =>
    exact .after _ fun _ => (follows_popMany _).bind fun _ => .after _ fun _ => .after _ fun v => hpush v
  | map => exact (follows_popMany _).bind fun _ => .after _ fun _ => .after _ fun _ => .after _ fun v => hpush v
  | call => exact (follows_call h _ _).before _
  | setSelGlobal => exact (follows_popSelectors _).bind fun p => .after _ fun target => hassign target p.1 p.2
  | setSelFree =>
    exact (follows_popSelectors _).bind fun p => .after _ fun _ => .after _ fun target => hassign target p.1 p.2
  | getLocal => exact (follows_getLocal _).bind fun v => hpush v
  | setLocal => exact .after _ fun v => (follows_setLocal _ v).before _
  | defineLocal => exact .after _ fun v => (follows_defineLocal _ v).before _
  | setSelLocal =>
    exact (follows_popSelectors _).bind fun p => (follows_getLocal _).bind fun target => hassign target p.1 p.2
  | captureLocal => exact (follows_captureLocal _).bind fun _ => .after _ fun _ => .lift _
  | closure => exact (follows_makeClosure _ _).before _
  | _ => exact .lift _

theorem follows_step (h : ∀ v args, Follows (inv v args) (inv' v args)) (floor : Nat) :
    Follows (step s inv floor) (Exec.step s inv' floor) :=
  .after _ fun _ => follows_fetch.bind fun i => follows_execute h floor i

/-! ### Runs -/

theorem size_of_pushAll {vs : List Value} (h : pushAll s vs m = .ok () m') :
    m'.stack.size = m.stack.size + vs.length := by
  induction vs generalizing m with
  | nil =>
    cases h
    rfl
  | cons v rest ih =>
    obtain ⟨⟨⟩, m₁, hpush, h⟩ := bind_eq_ok h
    obtain ⟨-, rfl⟩ := push_eq_ok hpush
    rw [ih h, Array.size_push, List.length_cons]
    omega

theorem follows_callValue {go : Nat → Strict (Option Value)} {go' : Nat → Exec (Option Value)}
    (hgo : ∀ floor, Follows (go floor) (go' floor)) (h : ∀ v args, Follows (inv v args) (inv' v args))
    (callee : Value) (args : List Value) :
    Follows (callValue s go inv callee args) (Exec.callValue s go' inv' callee args) := by
  refine .after _ fun _ => .after _ fun m => .after _ fun _ m₁ => (Follows.lift _ m₁).bind fun _ m2 hpush => ?_
  have hargs : args.length ≤ m2.stack.size := by
    rw [size_of_pushAll hpush]
    exact Nat.le_add_left _ _
  cases callee with
  | function f => exact (follows_callFunction hargs).bind fun _ m3 _ => (hgo _).before _ m3
  | native f => exact (follows_callNative h f _).before _ m2
  | _ => rfl

theorem follows_guarded {body : Strict Value} {body' : Exec Value} (h : Follows body body') :
    Follows (guarded body) (Exec.guarded body') := by
  intro m
  rw [FollowsAt, guarded, Exec.guarded, Exec.unwinding, h m]
  cases body' m with
  | ok v m₁ => rfl
  | error e m₁ => cases e <;> rfl

/-- The strict machine runs and calls as the machine does. -/
theorem follows_loops (s : Setting) (fuel : Nat) :
    (∀ floor, Follows (runLoop s fuel floor) (Exec.runLoop s fuel floor)) ∧
      ∀ v args, Follows (invoke s fuel v args) (Exec.invoke s fuel v args) := by
  induction fuel with
  | zero =>
    refine ⟨fun _ => ?_, fun _ _ => ?_⟩
    · exact .lift _
    · exact .lift _
  | succ fuel ih =>
    obtain ⟨hloop, hinvoke⟩ := ih
    refine ⟨fun floor m => ?_, fun v args => ?_⟩
    · have hstep := follows_step (s := s) hinvoke floor m
      simp only [FollowsAt] at hstep
      simp only [FollowsAt, runLoop.eq_2, Exec.runLoop.eq_2, hstep]
      cases Exec.step s (Exec.invoke s fuel) floor m with
      | ok flow m₁ =>
        cases flow with
        | goOn => exact hloop floor m₁
        | returned v | suspended => rfl
      | error e m₁ => cases e <;> rfl
    · exact follows_guarded (follows_callValue hloop hinvoke v args)

theorem follows_run (s : Setting) (fuel : Nat) : Follows (run s fuel) (Machine.run s fuel) := by
  intro m
  have hstart : Follows (do checkToken; enter s s.program.main 0; runLoop s fuel 0) (start s fuel) :=
    .after _ fun _ => (follows_enter _ _).bind fun _ => (follows_loops s fuel).1 0
  rw [FollowsAt, run, Machine.run, hstart]
  cases start s fuel (m.reset s) with
  | ok v m₁ => rfl
  | error e m₁ => cases e <;> rfl

end Strict

namespace Machine

end Machine

/-- Code that calls what is not there: it declares more parameters than variables, and its only
instruction spreads the last of 255 arguments that nobody has put on the stack. -/
def Setting.hostile : Setting where
  program := { main := { id := 0, code := #[Opcode.call.byte, 255, 1], locals := 1, parameters := 7 } }
  config := { stackSize := 4, maxFrames := 0 }

/-- Whether a run came to an end with a failure. -/
def Machine.hasFailed {α : Type} : EStateM.Result Halt Machine α → Bool
  | .error (.failure _) _ => true
  | _ => false

end ScriptEngine
