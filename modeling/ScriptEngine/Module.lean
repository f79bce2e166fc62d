import ScriptEngine.Ast
import ScriptEngine.Heap
/-!
# Modules

What a program can import by name: attributes that the host provides, or a file that is compiled on
demand.
-/

namespace ScriptEngine

inductive Module where
  /-- A frozen map of attributes that carries the module's name. -/
  | native (attributes : Value)
  | source (file : File)
  deriving Inhabited

/-- Modules by name, in the order in which they were first added. -/
structure ModuleTable where
  modules : Dict Module := {}
  deriving Inhabited

namespace ModuleTable

def find? (t : ModuleTable) (name : String) : Option Module := t.modules.find? name

/-- Adds a module, or replaces the one of that name in place. -/
def insert (t : ModuleTable) (name : String) (m : Module) : ModuleTable :=
  ⟨t.modules.insert name m⟩

def addNative (t : ModuleTable) (name : String) (attributes : Dict Value) : HeapM ModuleTable := do
  return t.insert name (.native (← HeapM.moduleOf name attributes))

/-- Adds a module that is compiled on demand. -/
def addSource (t : ModuleTable) (name : String) (file : File) : ModuleTable :=
  t.insert name (.source file)

def addAll (t other : ModuleTable) : ModuleTable :=
  other.modules.entries.foldl (fun t e => t.insert e.1 e.2) t

def erase (t : ModuleTable) (name : String) : ModuleTable := ⟨t.modules.erase name⟩

def names (t : ModuleTable) : List String := t.modules.keys

def size (t : ModuleTable) : Nat := t.modules.size

def isEmpty (t : ModuleTable) : Bool := t.modules.isEmpty

/-- The attributes of a module that the host provides. -/
def attributes? (t : ModuleTable) (h : Heap) (name : String) : Option (Dict Value) :=
  match t.find? name with
  | some (.native (.frozenMap a)) => some (h.map a)
  | _ => none

end ModuleTable

end ScriptEngine
