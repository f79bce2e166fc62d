import ScriptEngine.Builtin
import ScriptEngine.Dict
import ScriptEngine.Instant
import ScriptEngine.Source
/-!
# Values

The values that scripts compute with. Scalars, texts, instants and errors are plain data. Bytes,
arrays and maps are shared: a value holds the address of its content in the heap, so two values with
one address see each other's changes. Frozen arrays and maps also have addresses, since being the
same container can be observed, but their content never changes.
-/

namespace ScriptEngine

/-- The place of a content in the heap; each kind of content has addresses of its own. -/
abbrev Addr := Nat

/-- A compiled function. Its identity tells apart functions with the same code, and a function made
inside another one holds the cells of the variables that it captured. -/
structure Function where
  id : Nat := 0
  code : Array UInt8 := #[]
  /-- The slots for local variables, parameters included. -/
  locals : Nat := 0
  parameters : Nat := 0
  /-- Whether the last parameter collects the arguments that are left. -/
  variadic : Bool := false
  positions : PositionTable := {}
  captured : Array Addr := #[]
  deriving Repr, DecidableEq, Inhabited

/-- A function that is not compiled: a builtin, or one that the host provides under a name. -/
inductive Native where
  | builtin (b : Builtin)
  | host (name : String)
  deriving Repr, DecidableEq, Inhabited

def Native.name : Native → String
  | .builtin b => b.name
  | .host name => name

/-- What an iterator runs over. -/
inductive IteratorKind where
  | array
  | string
  | map
  deriving Repr, DecidableEq, Inhabited

inductive Value where
  | undefined
  | int (v : Int64)
  | float (v : Float)
  | char (c : Char)
  | bool (b : Bool)
  | string (s : String)
  | bytes (a : Addr)
  | array (a : Addr)
  | frozenArray (a : Addr)
  | map (a : Addr)
  | frozenMap (a : Addr)
  | time (t : Instant)
  | error (v : Value)
  | native (f : Native)
  | function (f : Function)
  | iterator (kind : IteratorKind) (a : Addr)
  deriving Inhabited

namespace Value

/-- The name of a value's type, as scripts see it. -/
def typeName : Value → String
  | .undefined => "undefined"
  | .int _ => "int"
  | .float _ => "float"
  | .char _ => "char"
  | .bool _ => "bool"
  | .string _ => "string"
  | .bytes _ => "bytes"
  | .array _ => "array"
  | .frozenArray _ => "immutable-array"
  | .map _ => "map"
  | .frozenMap _ => "immutable-map"
  | .time _ => "time"
  | .error _ => "error"
  | .native f => "builtin-function:" ++ f.name
  | .function _ => "compiled-function"
  | .iterator .array _ => "array-iterator"
  | .iterator .string _ => "string-iterator"
  | .iterator .map _ => "map-iterator"

def isUndefined : Value → Bool
  | .undefined => true
  | _ => false

def isCallable : Value → Bool
  | .native _ | .function _ => true
  | _ => false

def isIterable : Value → Bool
  | .array _ | .frozenArray _ | .map _ | .frozenMap _ | .string _ => true
  | _ => false

/-- How many errors a value is wrapped in, and what they wrap. -/
def unwrap : Value → Nat × Value
  | .error v => ((unwrap v).1 + 1, (unwrap v).2)
  | v => (0, v)

def wrap : Nat → Value → Value
  | 0, v => v
  | n + 1, v => .error (wrap n v)

@[simp]
theorem wrap_unwrap (v : Value) : wrap v.unwrap.1 v.unwrap.2 = v := by
  induction v with
  | error v ih => simp [unwrap, wrap, ih]
  | _ => rfl

end Value

/-! ### Contents -/

/-- The items that an iterator runs over, as they were when it was made. -/
inductive IteratorItems where
  | array (items : Array Value)
  | string (chars : Array Char)
  | map (entries : Array (String × Value))
  deriving Inhabited

/-- An iterator: what it runs over, and how often it was moved on. -/
structure Iterator where
  items : IteratorItems
  moved : Nat := 0
  deriving Inhabited

def IteratorItems.size : IteratorItems → Nat
  | .array items => items.size
  | .string chars => chars.size
  | .map entries => entries.size

end ScriptEngine
