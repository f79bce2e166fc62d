import ScriptEngine.Machine.Call
import ScriptEngine.Value.Copy
/-!
# Instructions

What a single instruction does. Every step first counts towards the check whether to stop, then reads
the instruction and last executes it.
-/

namespace ScriptEngine

inductive Flow where
  | goOn
  | returned (v : Value)
  | suspended
  deriving Inhabited

namespace Exec

/-- Counts an instruction; now and then it is checked whether to stop. -/
def tick (s : Setting) : Exec Unit := fun m =>
  if max s.config.checkInterval 1 ≤ m.ticks + 1 then checkToken { m with ticks := 0 }
  else .ok () { m with ticks := m.ticks + 1 }

def fetch : Exec Instruction := fun m =>
  match m.frames with
  | [] => .error (.failure { cause := .custom "no active frame" }) m
  | f :: rest =>
    match f.func.code[f.next]? with
    | none => .error (.failure { cause := .custom "instruction pointer out of range" }) m
    | some byte =>
      match Instruction.fetchAt f.func.code f.next byte with
      | none => .error (.failure { cause := .invalidInstruction byte }) m
      | some i => .ok i { m with frames := { f with current := i.offset, next := i.next } :: rest }

/-- The map of keys and values that follow each other. -/
def pairUp (h : Heap) : List Value → Dict Value → Dict Value
  | key :: v :: rest, d => pairUp h rest (d.insert (key.plainText h) v)
  | _, d => d

/-- Sets the part of a value that selectors lead to; the first selector is the innermost one. -/
def assignPart (target v : Value) (selectors : List Value) : Exec Unit := do
  match selectors with
  | [] => fault (.notIndexAssignable target.typeName)
  | last :: path =>
    let holder ← examine fun h => path.reverse.foldlM (fun v key => v.get h key) target
    onHeap (holder.set last v)

/-- Takes a value and the `n` selectors above it off the stack. -/
def popSelectors (n : Nat) : Exec (Value × List Value) := do
  let selectors ← popMany n
  let v ← pop
  return (v, selectors.toList)

/-- Takes a value off the stack, computes another from it and puts that there. -/
def compute (s : Setting) (f : Value → Exec Value) : Exec Unit := do
  let v ← f (← pop)
  push s v

/-- Computes a value that counts as an allocation. -/
def produce (s : Setting) (f : Value → Exec Value) : Exec Unit := do
  let v ← f (← pop)
  alloc
  push s v

/-- Ends the innermost call. The result is handed out when the calls above the floor are done. -/
def leave (s : Setting) (floor : Nat) (v : Value) : Exec Flow := fun m =>
  match m.frames with
  | [] => .error (.failure { cause := .custom "return without frame" }) m
  | f :: rest =>
    let m := { m with
      frames := rest
      stack := m.stack.shrink (f.base - 1)
      cells := m.cells.shrink f.base }
    if rest.length ≤ floor then .ok (.returned v) m
    else (do push s v; return .goOn : Exec Flow) m

/-- A new function from the constant `index` and the last `n` captured cells. -/
def makeClosure (s : Setting) (index n : Nat) : Exec Unit := do
  match s.program.constants[index]? with
  | some (.function f) =>
    let cells := (← get).captures
    if cells.size < n then fault (.custom "missing captured cells")
    let start := cells.size - n
    modify fun m => { m with captures := m.captures.shrink start }
    alloc
    push s (← onHeap (HeapM.function { f with captured := cells.extract start cells.size }))
  | _ => fault (.custom s!"constant {index} is not a function")

def execute (s : Setting) (invoke : Invoke) (floor : Nat) (i : Instruction) : Exec Flow := do
  match i.op with
  | .const =>
    match s.program.constants[i.first]? with
    | some v => push s v
    | none => fault (.custom s!"constant {i.first} out of range")
  | .pop => discard pop
  | .pushTrue => push s (.bool true)
  | .pushFalse => push s (.bool false)
  | .pushUndefined => push s .undefined
  | .equal =>
    let rhs ← pop
    let lhs ← pop
    push s (.bool (← inspect fun h => lhs.equal h rhs))
  | .notEqual =>
    let rhs ← pop
    let lhs ← pop
    push s (.bool (← inspect fun h => !lhs.equal h rhs))
  | .negate => produce s fun v => ofExcept v.negate
  | .logicalNot => compute s fun v => inspect fun h => .bool (v.isFalsy h)
  | .complement => produce s fun v => ofExcept v.complement
  | .binary =>
    match Operator.ofCode? i.first with
    | none => fault (.invalidInstruction i.op.byte)
    | some op =>
      let rhs ← pop
      let lhs ← pop
      let v ← onHeap (lhs.binary s.limits op rhs)
      alloc
      push s v
  | .jumpFalsy =>
    let v ← pop
    if ← inspect v.isFalsy then jump i.first
  | .andJump =>
    let v ← top
    if ← inspect v.isFalsy then jump i.first else discard pop
  | .orJump =>
    let v ← top
    if ← inspect v.isFalsy then discard pop else jump i.first
  | .jump => jump i.first
  | .array =>
    ofExcept (s.limits.checkArray i.first)
    let items ← popMany i.first
    alloc
    push s (← onHeap (HeapM.array items))
  | .map =>
    let items ← popMany i.first
    let entries ← inspect fun h => pairUp h items.toList {}
    alloc
    push s (← onHeap (HeapM.map entries))
  | .error => produce s fun v => pure (.error v)
  | .freeze => produce s fun v => onHeap v.freeze
  | .index =>
    let key ← pop
    let target ← pop
    push s (← examine fun h => target.get h key)
  | .slice =>
    let high ← pop
    let low ← pop
    let target ← pop
    let v ← onHeap (target.slice low high)
    alloc
    push s v
  | .call => call s invoke i.first (i.second != 0)
  | .ret =>
    let v ← if i.first = 1 then pop else pure .undefined
    return ← leave s floor v
  | .getGlobal => push s (← getGlobal i.first)
  | .setGlobal => setGlobal i.first (← pop)
  | .setSelGlobal =>
    let (v, selectors) ← popSelectors i.second
    assignPart (← getGlobal i.first) v selectors
  | .getLocal => push s (← getLocal i.first)
  | .setLocal => setLocal i.first (← pop)
  | .defineLocal => defineLocal i.first (← pop)
  | .setSelLocal =>
    let (v, selectors) ← popSelectors i.second
    assignPart (← getLocal i.first) v selectors
  | .getFree =>
    let cell ← captured i.first
    push s (← inspect (·.cell cell))
  | .setFree =>
    let v ← pop
    let cell ← captured i.first
    onHeap fun h => .ok () (h.setCell cell v)
  | .captureFree =>
    let cell ← captured i.first
    modify fun m => { m with captures := m.captures.push cell }
  | .captureLocal =>
    let cell ← captureLocal i.first
    modify fun m => { m with captures := m.captures.push cell }
  | .setSelFree =>
    let (v, selectors) ← popSelectors i.second
    let cell ← captured i.first
    assignPart (← inspect (·.cell cell)) v selectors
  | .getBuiltin =>
    match Builtin.all[i.first]? with
    | some b => push s (.native (.builtin b))
    | none => fault (.invalidInstruction i.op.byte)
  | .closure => makeClosure s i.first i.second
  | .iterInit => produce s fun v => onHeap v.iterate
  | .iterNext => compute s fun v => do return .bool (← onHeap v.advance)
  | .iterKey => compute s fun v => examine v.iteratorKey
  | .iterValue => compute s fun v => examine v.iteratorValue
  | .suspend => return .suspended
  return .goOn

def step (s : Setting) (invoke : Invoke) (floor : Nat) : Exec Flow := do
  tick s
  let i ← fetch
  execute s invoke floor i

end Exec

end ScriptEngine
