import ScriptEngine.Builtin
import ScriptEngine.Dict
/-!
# Symbols and scopes

Where the names of a program live. A scope is the body of a function, or a block inside one; the
outermost scope of a file is a root. Blocks own no slots: they count on after their parent, and what
a block outside all functions defines is counted at the root.

A name is looked up outwards. A variable of an enclosing function that is found this way becomes a
captured variable of every function between. Scopes and symbols are numbered in the order of their
creation, so that a scope's parent always has a smaller number than the scope.
-/

namespace ScriptEngine

inductive Storage where
  | global
  /-- A slot of the function that is running. -/
  | slot
  | builtin
  /-- A variable of an enclosing function. -/
  | captured
  deriving Repr, DecidableEq, Inhabited

structure Symbol where
  name : String
  storage : Storage
  index : Nat
  /-- Whether the variable has got its first value. -/
  assigned : Bool := false
  deriving Repr, DecidableEq, Inhabited

abbrev ScopeId := Nat

abbrev SymbolId := Nat

/-- A scope: its names, how many slots it takes, and the most slots it ever needed together with the
blocks inside it. -/
structure Scope where
  parent : Option ScopeId := none
  isBlock : Bool := false
  names : Dict SymbolId := {}
  defined : Nat := 0
  peak : Nat := 0
  /-- The symbols of enclosing functions that this function captures. -/
  captures : Array SymbolId := #[]
  deriving Inhabited

structure SymbolTable where
  scopes : Array Scope := #[{}]
  symbols : Array Symbol := #[]
  builtins : Array SymbolId := #[]
  deriving Inhabited

namespace SymbolTable

/-- The outermost scope of the main program. -/
def root : ScopeId := 0

def scope (t : SymbolTable) (s : ScopeId) : Scope := t.scopes.getD s {}

def symbol (t : SymbolTable) (id : SymbolId) : Symbol := t.symbols.getD id default

def modifyScope (t : SymbolTable) (s : ScopeId) (f : Scope → Scope) : SymbolTable :=
  { t with scopes := t.scopes.modify s f }

def addScope (t : SymbolTable) (scope : Scope) : ScopeId × SymbolTable :=
  (t.scopes.size, { t with scopes := t.scopes.push scope })

/-- Adds a symbol and makes its name known in a scope. -/
def addSymbol (t : SymbolTable) (s : ScopeId) (symbol : Symbol) : SymbolId × SymbolTable :=
  let id := t.symbols.size
  (id, { t.modifyScope s (fun scope => { scope with names := scope.names.insert symbol.name id })
    with symbols := t.symbols.push symbol })

def parentOf (t : SymbolTable) (s : ScopeId) : Option { p : ScopeId // p < s } :=
  match (t.scope s).parent with
  | some p => if h : p < s then some ⟨p, h⟩ else none
  | none => none

/-- The scope around the function that a scope belongs to. -/
def enclosing (t : SymbolTable) (s : ScopeId) : Option ScopeId :=
  match t.parentOf s with
  | some ⟨p, _⟩ => if (t.scope s).isBlock then t.enclosing p else some p
  | none => none
termination_by s

/-- The outermost scope around a scope. -/
def rootOf (t : SymbolTable) (s : ScopeId) : ScopeId :=
  match t.parentOf s with
  | some ⟨p, _⟩ => t.rootOf p
  | none => s
termination_by s

/-- The slot that the next definition in a scope takes. -/
def nextIndex (t : SymbolTable) (s : ScopeId) : Nat :=
  match t.parentOf s with
  | some ⟨p, _⟩ =>
    if (t.scope s).isBlock then t.nextIndex p + (t.scope s).defined else (t.scope s).defined
  | none => (t.scope s).defined
termination_by s

/-- Records that a scope needed `n` slots. -/
def raiseOwnPeak (t : SymbolTable) (s : ScopeId) (n : Nat) : SymbolTable :=
  t.modifyScope s fun scope => { scope with peak := max scope.peak n }

/-- Records that `n` slots were needed, up to the function that a scope belongs to. -/
def raisePeak (t : SymbolTable) (s : ScopeId) (n : Nat) : SymbolTable :=
  match t.parentOf s with
  | some ⟨p, _⟩ =>
    if (t.scope s).isBlock then (t.raiseOwnPeak s n).raisePeak p n else t.raiseOwnPeak s n
  | none => t.raiseOwnPeak s n
termination_by s

/-- Opens a function or a block inside a scope. -/
def fork (t : SymbolTable) (parent : ScopeId) (isBlock : Bool) : ScopeId × SymbolTable :=
  t.addScope { parent := some parent, isBlock }

/-- Opens a scope that knows the builtins only. -/
def newRoot (t : SymbolTable) : ScopeId × SymbolTable :=
  t.addScope { names := t.builtins.foldl (fun d id => d.insert (t.symbol id).name id) {} }

/-- Defines a variable: a global outside all functions, a slot inside one. -/
def define (t : SymbolTable) (s : ScopeId) (name : String) : SymbolId × SymbolTable :=
  let index := t.nextIndex s
  let (storage, owner) :=
    match t.enclosing s with
    | none => (Storage.global, t.rootOf s)
    | some _ => (Storage.slot, s)
  let t := t.modifyScope owner fun scope => { scope with defined := scope.defined + 1 }
  let (id, t) := t.addSymbol s { name, storage, index }
  (id, t.raisePeak s (index + 1))

/-- Makes a builtin known in a scope, and in every root that is opened later. -/
def defineBuiltin (t : SymbolTable) (s : ScopeId) (index : Nat) (name : String) :
    SymbolId × SymbolTable :=
  let (id, t) := t.addSymbol s { name, storage := .builtin, index }
  (id, { t with builtins := t.builtins.push id })

/-- The table that knows every builtin. -/
def withBuiltins : SymbolTable :=
  Builtin.all.foldl (fun t b => (t.defineBuiltin root b.index b.name).2) {}

/-- Captures a symbol of an enclosing function. -/
def capture (t : SymbolTable) (s : ScopeId) (outer : SymbolId) : SymbolId × SymbolTable :=
  let index := (t.scope s).captures.size
  let name := (t.symbol outer).name
  let t := t.modifyScope s fun scope => { scope with captures := scope.captures.push outer }
  t.addSymbol s { name, storage := .captured, index }

/-- Whether a symbol that stands in a scope is seen from there; a variable without a value is seen
only from scopes further in. -/
def isVisible (symbol : Symbol) (fromInside : Bool) : Bool :=
  symbol.storage != .slot || symbol.assigned || fromInside

/-- Looks a name up from a scope, or from one inside it, and captures it where that is needed. The
result is the symbol and how many scopes further out it was found. -/
def resolveFrom (t : SymbolTable) (s : ScopeId) (name : String) (fromInside : Bool) :
    Option (SymbolId × Nat × SymbolTable) :=
  let here := ((t.scope s).names.find? name).filter fun id => isVisible (t.symbol id) fromInside
  match here with
  | some id => some (id, 0, t)
  | none =>
    match t.parentOf s with
    | none => none
    | some ⟨p, _⟩ =>
      match t.resolveFrom p name true with
      | none => none
      | some (id, depth, t) =>
        let storage := (t.symbol id).storage
        if (t.scope s).isBlock || storage == .global || storage == .builtin then
          some (id, depth + 1, t)
        else
          let (captured, t) := t.capture s id
          some (captured, depth + 1, t)
termination_by s

def resolve (t : SymbolTable) (s : ScopeId) (name : String) :
    Option (SymbolId × Nat × SymbolTable) :=
  t.resolveFrom s name false

/-- Records that a variable has got its first value. -/
def markAssigned (t : SymbolTable) (id : SymbolId) : SymbolTable :=
  { t with symbols := t.symbols.modify id fun symbol => { symbol with assigned := true } }

def slots (t : SymbolTable) (s : ScopeId) : Nat := (t.scope s).peak

def sortedNames (t : SymbolTable) (s : ScopeId) : List String :=
  (t.scope s).names.keys.mergeSort fun a b => !decide (b < a)

/-- Defines a global of the main program and gives its slot. -/
def defineGlobal (t : SymbolTable) (name : String) : Nat × SymbolTable :=
  let (id, t) := t.define root name
  ((t.symbol id).index, t)

/-- The slot of a global of the main program. -/
def globalIndex? (t : SymbolTable) (name : String) : Option Nat :=
  match (t.scope root).names.find? name with
  | none => none
  | some id =>
    let symbol := t.symbol id
    if symbol.storage = .global then some symbol.index else none

end SymbolTable

end ScriptEngine
