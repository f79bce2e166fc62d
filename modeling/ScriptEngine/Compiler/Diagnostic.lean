import ScriptEngine.Source
/-!
# Diagnostics

What a compilation complains about. `Complaint` is the cause and `Complaint.message` words it. The
report of a failed compilation holds the first complaints with their places, and how many more there
were.
-/

namespace ScriptEngine

inductive Complaint where
  | tooManyConstants
  | tooManyVariables (name : String)
  | tooManyElements (what : String)
  | unresolved (name : String)
  | redeclared (name : String)
  | assignToBuiltin (name : String)
  | tupleAssignment
  | notAssignable
  | defineWithSelector
  | breakOutsideLoop
  | continueOutsideLoop
  | returnOutsideFunction
  | exportInsideFunction
  | moduleNotFound (name : String)
  | cyclicImport (name : String)
  /-- The tree holds a node that could not be read. -/
  | unreadable (message : String)
  deriving Repr, DecidableEq, Inhabited

def Complaint.message : Complaint → String
  | .tooManyConstants => "too many constants"
  | .tooManyVariables name => s!"too many variables: '{name}'"
  | .tooManyElements what => s!"too many elements in {what}"
  | .unresolved name => s!"unresolved reference '{name}'"
  | .redeclared name => s!"'{name}' redeclared in this block"
  | .assignToBuiltin name => s!"cannot assign to builtin function '{name}'"
  | .tupleAssignment => "tuple assignment not allowed"
  | .notAssignable => "cannot assign to this expression"
  | .defineWithSelector => "operator ':=' not allowed with selector"
  | .breakOutsideLoop => "break not allowed outside loop"
  | .continueOutsideLoop => "continue not allowed outside loop"
  | .returnOutsideFunction => "return not allowed outside function"
  | .exportInsideFunction => "export not allowed inside function"
  | .moduleNotFound name => s!"module '{name}' not found"
  | .cyclicImport name => s!"cyclic module import: {name}"
  | .unreadable message => message

structure Diagnostic where
  complaint : Complaint
  location : Location
  deriving Repr, DecidableEq, Inhabited

def Diagnostic.message (d : Diagnostic) : String :=
  "Compile Error: " ++ d.complaint.message ++ "\n\tat " ++ d.location.text

/-- The report of a failed compilation: the diagnostics that were kept, and how many were not. -/
structure CompileError where
  diagnostics : List Diagnostic
  overflow : Nat := 0
  deriving Repr, DecidableEq, Inhabited

def CompileError.message (e : CompileError) : String :=
  "\n".intercalate (e.diagnostics.map Diagnostic.message) ++
    if e.overflow > 0 then s!"\n(and {e.overflow} more errors)" else ""

end ScriptEngine
