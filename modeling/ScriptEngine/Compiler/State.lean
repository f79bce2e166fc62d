import ScriptEngine.Compiler.Diagnostic
import ScriptEngine.Module
import ScriptEngine.Program
import ScriptEngine.Symbol
/-!
# The state of a compilation

Instructions are appended to the draft of the function at hand. A jump is emitted with a preliminary
target and corrected when the target is known. Complaints are collected and do not stop the
compilation.
-/

namespace ScriptEngine

inductive BodyKind where
  | main
  | module
  | function
  deriving Repr, DecidableEq, Inhabited

/-- The jumps that leave a loop, and those that start its next round. -/
structure LoopExits where
  breaks : List Nat := []
  continues : List Nat := []
  deriving Repr, DecidableEq, Inhabited

/-- A function under construction, with the loops that are open, innermost first. -/
structure Draft where
  kind : BodyKind := .main
  code : Array UInt8 := #[]
  positions : PositionTable := {}
  loops : List LoopExits := []
  deriving Repr, DecidableEq, Inhabited

namespace Draft

/-- Notes the position of the instruction that comes next. -/
@[noinline]
def mark (d : Draft) (pos : Pos) : Draft :=
  { d with positions := d.positions.insert d.code.size pos }

@[noinline]
def append (d : Draft) (bytes : List UInt8) : Draft := { d with code := d.code ++ bytes }

def emit (d : Draft) (pos : Pos) (op : Opcode) (operands : List Nat) : Draft :=
  (d.mark pos).append (Instruction.encode op operands)

/-- Writes bytes over a code from an offset on. -/
def overwrite (code : Array UInt8) : Nat → List UInt8 → Array UInt8
  | _, [] => code
  | offset, b :: rest => overwrite (code.setIfInBounds offset b) (offset + 1) rest

def patch (d : Draft) (offset target : Nat) : Draft :=
  match d.code[offset]?.bind Opcode.ofByte? with
  | some op => { d with code := overwrite d.code offset (Instruction.encode op [target]) }
  | none => d

def patchAll (d : Draft) (offsets : List Nat) (target : Nat) : Draft :=
  offsets.foldl (fun d offset => d.patch offset target) d

end Draft

/-- How a compilation is done. With no most number of errors all are reported. -/
structure CompileOptions where
  maxErrors : Nat := 10
  modules : ModuleTable := {}
  mergeConstants : Bool := true

structure CompileState where
  symbols : SymbolTable
  files : FileSet := {}
  scope : ScopeId := SymbolTable.root
  draft : Draft := {}
  constants : Array Value := #[]
  /-- How many function identities were handed out. -/
  functions : Nat := 0
  /-- The modules compiled so far, the last one first. -/
  imported : List (String × Function) := []
  /-- The modules being compiled, innermost first. -/
  importing : List String := []
  diagnostics : Array Diagnostic := #[]
  overflow : Nat := 0
  deriving Inhabited

abbrev CompileM := ReaderT CompileOptions (StateM CompileState)

namespace CompileM

/-- Records a complaint, or counts it when enough are recorded. -/
def complain (pos : Pos) (c : Complaint) : CompileM Unit := do
  let cap := (← read).maxErrors
  modify fun s =>
    if cap = 0 ∨ s.diagnostics.size < cap then
      { s with diagnostics := s.diagnostics.push { complaint := c, location := s.files.locate pos } }
    else { s with overflow := s.overflow + 1 }

def isFull : CompileM Bool := do
  let cap := (← read).maxErrors
  return 0 < cap && cap ≤ (← get).diagnostics.size

/-! ### Code -/

def here : CompileM Nat := do
  return (← get).draft.code.size

def emit (pos : Pos) (op : Opcode) (operands : List Nat := []) : CompileM Unit :=
  modify fun s => { s with draft := s.draft.emit pos op operands }

/-- Appends a jump whose target is set later, and gives its offset. -/
def emitJump (pos : Pos) (op : Opcode) : CompileM Nat := do
  let offset ← here
  emit pos op [0]
  return offset

def patch (offset target : Nat) : CompileM Unit :=
  modify fun s => { s with draft := s.draft.patch offset target }

/-- Lets a jump go to the next instruction. -/
def patchHere (offset : Nat) : CompileM Unit := do
  patch offset (← here)

/-- The largest number of a constant or global. -/
def maxWide : Nat := 65535

/-- The largest number of a local or captured variable. -/
def maxNarrow : Nat := 255

/-- The number of a new constant. -/
def addConstant (pos : Pos) (v : Value) : CompileM Nat := do
  let n := (← get).constants.size
  if maxWide < n then
    complain pos .tooManyConstants
    return 0
  modify fun s => { s with constants := s.constants.push v }
  return n

def emitConstant (pos : Pos) (v : Value) : CompileM Unit := do
  let n ← addConstant pos v
  emit pos .const [n]

/-- A number of elements, which must not be above a maximum. -/
def counted (pos : Pos) (n most : Nat) (what : String) : CompileM Nat := do
  if most < n then complain pos (.tooManyElements what)
  return n

def newFunctionId : CompileM Nat := do
  let id := (← get).functions
  modify fun s => { s with functions := id + 1 }
  return id

/-! ### Scopes and symbols -/

def onSymbols (f : SymbolTable → α × SymbolTable) : CompileM α :=
  modifyGet fun s =>
    let (a, symbols) := f s.symbols
    (a, { s with symbols })

def resolve (name : String) : CompileM (Option (SymbolId × Nat)) := do
  let s ← get
  match s.symbols.resolve s.scope name with
  | some (id, depth, symbols) =>
    set { s with symbols }
    return some (id, depth)
  | none => return none

def define (name : String) : CompileM SymbolId := do
  let scope := (← get).scope
  onSymbols (·.define scope name)

def symbol (id : SymbolId) : CompileM Symbol := do
  return (← get).symbols.symbol id

def markAssigned (id : SymbolId) : CompileM Unit :=
  onSymbols fun t => ((), t.markAssigned id)

/-- Compiles in a scope, and returns to the scope at hand. -/
def inScope (scope : ScopeId) (body : CompileM α) : CompileM α := do
  let outer := (← get).scope
  modify fun s => { s with scope }
  let a ← body
  modify fun s => { s with scope := outer }
  return a

def inBlock (body : CompileM α) : CompileM α := do
  let outer := (← get).scope
  let scope ← onSymbols (·.fork outer true)
  inScope scope body

/-- Compiles a function of its own and gives its draft. -/
def inDraft (kind : BodyKind) (body : CompileM Unit) : CompileM Draft := do
  let outer ← modifyGet fun s => (s.draft, { s with draft := { kind } })
  body
  modifyGet fun s => (s.draft, { s with draft := outer })

/-- The slot of a symbol, which must not be above what an operand can hold. -/
def slot (pos : Pos) (sym : Symbol) : CompileM Nat := do
  let most := if sym.storage = .global then maxWide else maxNarrow
  if most < sym.index then complain pos (.tooManyVariables sym.name)
  return sym.index

def load (pos : Pos) (id : SymbolId) : CompileM Unit := do
  let sym ← symbol id
  let index ← slot pos sym
  let op : Opcode :=
    match sym.storage with
    | .global => .getGlobal
    | .slot => .getLocal
    | .builtin => .getBuiltin
    | .captured => .getFree
  emit pos op [index]

/-- Gives the variable of a loop its next value, which is on the stack. -/
def bindLoopVariable (pos : Pos) (id : SymbolId) : CompileM Unit := do
  let sym ← symbol id
  let index ← slot pos sym
  if sym.storage = .global then emit pos .setGlobal [index]
  else
    markAssigned id
    emit pos .defineLocal [index]

/-! ### Loops -/

/-- Compiles the body of a loop and gives the jumps that leave it or start its next round. -/
def inLoop (body : CompileM Unit) : CompileM LoopExits := do
  modify fun s => { s with draft := { s.draft with loops := {} :: s.draft.loops } }
  body
  modifyGet fun s =>
    (s.draft.loops.headD {}, { s with draft := { s.draft with loops := s.draft.loops.tail } })

def closeLoop (exits : LoopExits) (stop next : Nat) : CompileM Unit :=
  modify fun s => { s with draft := (s.draft.patchAll exits.breaks stop).patchAll exits.continues next }

/-- Leaves the innermost loop, or starts its next round; says whether there is a loop. -/
def branch (pos : Pos) (isBreak : Bool) : CompileM Bool := do
  match (← get).draft.loops with
  | [] =>
    complain pos (if isBreak then .breakOutsideLoop else .continueOutsideLoop)
    return false
  | exits :: outer =>
    let offset ← emitJump pos .jump
    let exits :=
      if isBreak then { exits with breaks := offset :: exits.breaks }
      else { exits with continues := offset :: exits.continues }
    modify fun s => { s with draft := { s.draft with loops := exits :: outer } }
    return true

end CompileM

end ScriptEngine
