import ScriptEngine.Compiler.Tree
import ScriptEngine.Program.Dedup
/-!
# Compiling files

From a file and the modules that it may import to a program. A module that is compiled is a function
without parameters, called where it is imported. It is compiled once, in a scope that knows the
builtins only. Importing a module from inside itself is an error, so imports are nested no deeper
than there are modules, and that is the fuel of `importer`.
-/

namespace ScriptEngine

namespace Compile

open CompileM

def moduleFunction (importing : Pos → String → CompileM Unit) (name : String) (file : File) :
    CompileM Function := do
  modify fun s => { s with importing := name :: s.importing }
  let root ← onSymbols SymbolTable.newRoot
  let scope ← onSymbols (·.fork root false)
  let draft ← inScope scope (inDraft .module do
    if !(← topLevel importing file.stmts) then emit Pos.unknown .ret [0])
  modify fun s => { s with importing := s.importing.tail }
  return {
    id := ← newFunctionId
    code := draft.code
    locals := (← get).symbols.slots scope
    positions := draft.positions }

/-- The function of a module, compiled at the first import. -/
def importedFunction (importing : Pos → String → CompileM Unit) (name : String) (file : File) :
    CompileM Function := do
  match (← get).imported.lookup name with
  | some f => return f
  | none =>
    let f ← moduleFunction importing name file
    modify fun s => { s with imported := (name, f) :: s.imported }
    return f

/-- Compiles an import; `importing` compiles those in the module. -/
def importModule (importing : Pos → String → CompileM Unit) (pos : Pos) (name : String) : CompileM Unit := do
  match (← read).modules.find? name with
  | none => complain pos (.moduleNotFound name)
  | some (.native attributes) => emitConstant pos attributes
  | some (.source file) =>
    if (← get).importing.contains name then complain pos (.cyclicImport name)
    else
      let f ← importedFunction importing name file
      emitConstant pos (.function f)
      emit pos .call [0, 0]

/-- Compiles imports that are nested at most as deep as the fuel says. -/
def importer : Nat → Pos → String → CompileM Unit
  | 0, _, _ => pure ()
  | fuel + 1, pos, name => importModule (importer fuel) pos name

/-- Compiles the main program; `importing` compiles imports. -/
def mainFunction (importing : Pos → String → CompileM Unit) (file : File) : CompileM Function := do
  discard (topLevel importing file.stmts)
  emit Pos.unknown .suspend
  let id ← newFunctionId
  let draft ← modifyGet fun s => (s.draft, { s with draft := {} })
  return { id, code := draft.code, positions := draft.positions }

end Compile

structure Compilation where
  result : Except CompileError Program
  symbols : SymbolTable
  heap : Heap

/-- Compiles a file to a program; `importing` compiles imports. -/
def compileWith (importing : Pos → String → CompileM Unit) (options : CompileOptions) (files : FileSet)
    (symbols : SymbolTable) (file : File) (h : Heap) : Compilation :=
  let (main, s) := (Compile.mainFunction importing file options).run { symbols, files, functions := h.functions }
  let h := { h with functions := s.functions }
  let result :=
    if s.diagnostics.isEmpty then
      let p : Program := { files, main, constants := s.constants }
      .ok (if options.mergeConstants then p.dedup h else p)
    else .error { diagnostics := s.diagnostics.toList, overflow := s.overflow }
  { result, symbols := s.symbols, heap := h }

def compile (options : CompileOptions) : FileSet → SymbolTable → File → Heap → Compilation :=
  compileWith (Compile.importer (options.modules.size + 1)) options

end ScriptEngine
