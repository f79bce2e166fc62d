import ScriptEngine.Proofs.Compiler.Correct
import ScriptEngine.Proofs.Dict
/-!
# The code of a program

A module is compiled at its first import, and no import is nested in an import of the same module.
So the fuel of the compiler is never used up, and a file that compiles without complaints becomes the
program that `Lowers` describes.
-/

namespace ScriptEngine

open CompileM CompileState

variable {t : CompileState} {fuel : Nat} {importing : Pos → String → CompileM Unit} {p : Program} {name : String}
  {symbols : SymbolTable}

variable {file : File} {files : FileSet} {h : Heap} {o : CompileOptions} {C : List String → Prop}

/-! ### Files -/

theorem quiet_isFull : Quiet o isFull fun s a σ => a = false ∧ σ = s.stage := by
  intro s hclean
  have hclean : s.diagnostics = #[] := hclean
  refine ⟨hclean, s.stage, ⟨?_, rfl⟩, s.advance_nop_stage.symm⟩
  show (decide (0 < o.maxErrors) && decide (o.maxErrors ≤ s.diagnostics.size)) = false
  rw [hclean]
  cases o.maxErrors <;> rfl

/-- Without complaints, imports become the code that `Lowers` describes. -/
def ImportsMeet (o : CompileOptions) (C : List String → Prop) (importing : Pos → String → CompileM Unit) : Prop :=
  ∀ pos name, Meets o (importing pos name) (Emits o C (.expr (.importModule pos name)))

/-- Without complaints, the statements of a file are compiled like those of a block. -/
theorem meets_topLevel (himport : ImportsMeet o C importing) (ss : List Stmt) :
    Meets o (Compile.topLevel importing ss) (EmitsAll o C (.stmts ss) (Stmt.anyLeaves · ss)) := by
  induction ss with
  | nil => exact meets_stmts himport []
  | cons s rest ih =>
    have hnext : ∀ full : Bool, Meets o (do
        if full then return false
        if ← Compile.stmt importing s then return true
        Compile.topLevel importing rest) fun t a c σ => full = false →
          EmitsAll o C (.stmts (s :: rest)) (Stmt.anyLeaves · (s :: rest)) t a c σ := by
      rintro (_ | _)
      · exact (meets_andThenStmts (meets_stmt himport s) ih).mono fun _ _ _ _ h _ => h
      · exact (Quiet.pure false).toMeets.mono fun _ _ _ _ _ h => by cases h
    refine (quiet_isFull.andThen hnext).mono ?_
    rintro t a c σ ⟨_, _, ⟨rfl, rfl⟩, h⟩
    rw [advance_nop_stage] at h
    exact h rfl

/-! ### Imports -/

/-- Compiles the body of a module and gives its scope and its draft. -/
def moduleBody (importing : Pos → String → CompileM Unit) (file : File) : CompileM (ScopeId × Draft) := do
  let root ← onSymbols SymbolTable.newRoot
  let scope ← onSymbols (·.fork root false)
  let draft ← inScope scope (inDraft .module do
    if !(← Compile.topLevel importing file.stmts) then emit Pos.unknown .ret [0])
  return (scope, draft)

theorem quiet_moduleBody (file : File) (himport : ImportsMeet o C importing) :
    Quiet o (moduleBody importing file) fun s r σ => C s.importing →
      ∃ a σ1, Lowers o ⟨.module, false, s.importing⟩ (.stmts file.stmts) s.stage.enterModule a σ1 ∧
        r = (s.stage.enterModule.scope,
          ({ kind := .module } : Draft).plus (a.closing Pos.unknown (Stmt.anyLeaves .module file.stmts))) ∧
        σ = σ1.returnTo s.scope := by
  have hdraft := quiet_inDraft .module (meets_functionBody Pos.unknown (meets_topLevel himport file.stmts))
  refine ((quiet_onSymbols SymbolTable.newRoot).bind fun root => (quiet_onSymbols (·.fork root false)).bind
    fun scope => (quiet_inScope scope hdraft).bind fun draft => Quiet.pure (scope, draft)).mono ?_
  rintro s _ _ ⟨root, _, ⟨rfl, rfl⟩, scope, _, ⟨rfl, rfl⟩, draft, _,
    ⟨σ1, ⟨_, ⟨leaves, a, ha, rfl⟩, rfl⟩, rfl⟩, rfl, rfl⟩ hstack
  obtain ⟨rfl, hlowers⟩ := ha hstack
  exact ⟨a, σ1, hlowers, rfl, rfl⟩

/-- The state in which the body of a module is compiled. -/
def CompileState.importingOf (s : CompileState) (name : String) : CompileState :=
  { s with importing := name :: s.importing }

/-- The body is compiled with the module on the stack, which is taken off again afterwards. -/
theorem moduleFunction_eq (importing : Pos → String → CompileM Unit) (name : String) (file : File)
    (s : CompileState) {r : (ScopeId × Draft) × CompileState}
    (hr : moduleBody importing file o (s.importingOf name) = r) :
    Compile.moduleFunction importing name file o s =
      ({ id := r.2.functions, code := r.1.2.code, locals := r.2.symbols.slots r.1.1
         positions := r.1.2.positions },
        { r.2 with importing := r.2.importing.tail, functions := r.2.functions + 1 }) := by
  subst hr
  rfl

/-- The statements of a module become the code of a function. -/
def LowersModule (o : CompileOptions) (name : String) (file : File) (s : CompileState) (f : Function)
    (σ : Stage) : Prop :=
  ∃ a, Lowers o ⟨.module, false, name :: s.importing⟩ (.stmts file.stmts) s.stage.enterModule a σ ∧
    f = σ.functionOf s.stage.enterModule.scope (a.closing Pos.unknown (Stmt.anyLeaves .module file.stmts)) 0 false

theorem quiet_moduleFunction (name : String) (file : File) (himport : ImportsMeet o C importing) :
    Quiet o (Compile.moduleFunction importing name file) fun s f σ => C (name :: s.importing) →
      ∃ σ1, LowersModule o name file s f σ1 ∧ σ = (σ1.returnTo s.scope).addFunction := by
  intro s hclean
  obtain ⟨r, hrun⟩ : ∃ r, moduleBody importing file o (s.importingOf name) = r := ⟨_, rfl⟩
  rw [moduleFunction_eq importing name file s hrun] at hclean ⊢
  obtain ⟨hs, σ, hr, heq⟩ := quiet_moduleBody file himport (s.importingOf name) (by rw [hrun]; exact hclean)
  rw [hrun] at hr heq
  refine ⟨hs, σ.addFunction, fun hstack => ?_, ?_⟩
  · obtain ⟨a, σ1, ha, hpair, rfl⟩ := hr hstack
    refine ⟨σ1, ⟨a, ha, ?_⟩, rfl⟩
    rw [heq, hpair]
    rfl
  · rw [heq]
    rfl

/-- The function of a module, given the one that is known. -/
def functionFrom (importing : Pos → String → CompileM Unit) (name : String) (file : File) :
    Option Function → CompileM Function
  | some f => return f
  | none => do
    let f ← Compile.moduleFunction importing name file
    modify fun s => { s with imported := (name, f) :: s.imported }
    return f

/-- What a module's function is, and what is known after it was asked for. -/
theorem quiet_importedFunction (name : String) (file : File) (himport : ImportsMeet o C importing) :
    Quiet o (Compile.importedFunction importing name file) fun s f σ => C (name :: s.importing) →
      (s.imported.lookup name = some f ∧ σ = s.stage) ∨
      (s.imported.lookup name = none ∧ ∃ σ1, LowersModule o name file s f σ1 ∧
          σ = { (σ1.returnTo s.scope).addFunction with imported := (name, f) :: σ1.imported }) := by
  have hinsert : ∀ f : Function, Quiet o
      (modify (fun s => { s with imported := (name, f) :: s.imported })) fun s _ σ =>
      σ = { s.stage with imported := (name, f) :: s.imported } := by
    intro f s hclean
    refine ⟨hclean, _, rfl, ?_⟩
    rw [advance, Draft.plus_nop]
    rfl
  have hnext : ∀ known : Option Function, Quiet o (functionFrom importing name file known) fun s f σ =>
      C (name :: s.importing) → (known = some f ∧ σ = s.stage) ∨ (known = none ∧
        ∃ σ1, LowersModule o name file s f σ1 ∧
          σ = { (σ1.returnTo s.scope).addFunction with imported := (name, f) :: σ1.imported }) := by
    rintro (_ | f)
    · refine ((quiet_moduleFunction name file himport).bind fun f => (hinsert f).bind fun _ =>
        Quiet.pure f).mono ?_
      rintro s f σ ⟨_, σ1, hf, _, _, rfl, rfl, rfl⟩ hstack
      obtain ⟨σ2, hfun, rfl⟩ := hf hstack
      exact .inr ⟨rfl, σ2, hfun, rfl⟩
    · exact (Quiet.pure f).mono fun s a σ h _ => .inl ⟨congrArg some h.1.symm, h.2⟩
  refine (quiet_get.bind fun s => hnext (s.imported.lookup name)).mono ?_
  rintro s f σ ⟨_, _, ⟨rfl, rfl⟩, h⟩
  exact h

/-- The imports at hand are different modules, and there is fuel for all others. -/
structure Room (o : CompileOptions) (fuel : Nat) (importing : List String) : Prop where
  nodup : importing.Nodup
  known : importing ⊆ o.modules.names
  fuel : o.modules.size < importing.length + fuel

theorem Room.cons {importing : List String} {m : Module} (h : Room o (fuel + 1) importing) (hname : name ∉ importing)
    (hmodule : o.modules.find? name = some m) : Room o fuel (name :: importing) := by
  refine ⟨List.nodup_cons.2 ⟨hname, h.nodup⟩, List.cons_subset.2 ⟨?_, h.known⟩, ?_⟩
  · exact Dict.mem_keys_of_find? hmodule
  · have hfuel := h.fuel
    rw [List.length_cons]
    omega

theorem Room.fuel_pos {importing : List String} (h : Room o fuel importing) : 0 < fuel := by
  have hle := List.Nodup.length_le_of_subset h.nodup h.known
  have hfuel := h.fuel
  rw [ModuleTable.names, Dict.keys, List.length_map] at hle
  rw [ModuleTable.size, Dict.size] at hfuel
  omega

/-- Compiles the import of a file, given the imports that are being compiled. -/
def importSource (importing : Pos → String → CompileM Unit) (pos : Pos) (name : String) (file : File)
    (s : CompileState) : CompileM Unit := do
  if s.importing.contains name then complain pos (.cyclicImport name)
  else
    let f ← Compile.importedFunction importing name file
    emitConstant pos (.function f)
    emit pos .call [0, 0]

/-- The import of a file, given the imports of what it imports. -/
theorem meets_importSource (pos : Pos) (hmodule : o.modules.find? name = some (.source file))
    (himport : ImportsMeet o (Room o fuel) importing) :
    Meets o (get >>= importSource importing pos name file) (Emits o (Room o (fuel + 1)) (.expr (.importModule pos name))) := by
  have hcall : ∀ s0 : CompileState, Meets o (importSource importing pos name file s0) fun s _ c σ => s0 = s →
        Emits o (Room o (fuel + 1)) (.expr (.importModule pos name)) s () c σ := by
    intro s0
    refine Meets.ite (fun _ => meets_complain pos _) fun hcycle => ?_
    refine ((quiet_importedFunction name file himport).andThen fun f =>
      (meets_emitConstant pos (.function f)).bind fun _ => meets_emit pos .call [0, 0]).mono ?_
    rintro s _ c σ ⟨f, σ1, hf, _, _, _, _, ⟨hroom, rfl, rfl⟩, ⟨rfl, rfl⟩, rfl⟩ rfl hstack
    have hcycle : name ∉ s0.importing := by simpa using hcycle
    rcases hf (hstack.cons hcycle hmodule) with ⟨hknown, rfl⟩ | ⟨hnew, σ2, ⟨a, ha, hfun⟩, rfl⟩
    · exact .importKnown hmodule hcycle hknown hroom
    · exact .importNew hmodule hcycle hnew ha hfun hroom
  refine (quiet_get.andThen hcall).mono ?_
  rintro s _ c σ ⟨_, _, ⟨rfl, rfl⟩, h⟩
  rw [advance_nop_stage] at h
  exact h rfl

/-- Compiles the import of a module that was found under a name. -/
def importFound (importing : Pos → String → CompileM Unit) (pos : Pos) (name : String) : Option Module → CompileM Unit
  | none => complain pos (.moduleNotFound name)
  | some (.native attributes) => emitConstant pos attributes
  | some (.source file) => do
    if (← get).importing.contains name then complain pos (.cyclicImport name)
    else
      let f ← Compile.importedFunction importing name file
      emitConstant pos (.function f)
      emit pos .call [0, 0]

theorem meets_importer (fuel : Nat) (pos : Pos) (name : String) :
    Meets o (Compile.importer fuel pos name) (Emits o (Room o fuel) (.expr (.importModule pos name))) := by
  induction fuel generalizing pos name with
  | zero => exact (Quiet.pure ()).toMeets.mono fun _ _ _ _ _ hroom => absurd hroom.fuel_pos (Nat.lt_irrefl 0)
  | succ fuel ih =>
    intro s
    have hrun : Compile.importer (fuel + 1) pos name o s =
        importFound (Compile.importer fuel) pos name (o.modules.find? name) o s := rfl
    rw [hrun]
    cases hmodule : o.modules.find? name with
    | none => exact meets_complain pos _ s
    | some m =>
      cases m with
      | native v =>
        refine (meets_emitConstant pos v).mono ?_ s
        rintro s _ c σ ⟨hroom, rfl, rfl⟩ _
        exact .importNative hmodule hroom
      | source file => exact meets_importSource pos hmodule ih s

/-! ### Programs -/

/-- The program of a compilation that had nothing to complain about. -/
def Compilation.program (c : Compilation) : Program :=
  match c.result with
  | .ok p => p
  | .error _ => {}

theorem Compilation.result_eq {c : Compilation} (h : c.result.toBool = true) : c.result = .ok c.program := by
  rw [Compilation.program]
  cases hresult : c.result with
  | ok p => rfl
  | error e =>
    rw [hresult] at h
    cases h

/-- What is known before the main program is compiled. -/
def Stage.initial (symbols : SymbolTable) (functions : Nat) : Stage :=
  ⟨symbols, SymbolTable.root, #[], functions, []⟩

/-- The context of the statements of the main program. -/
def Context.main : Context := ⟨.main, false, []⟩

/-- The code of the main program, which ends with the run. -/
def Code.ending (c : Code) : Code := c.seq (.instr Pos.unknown .suspend [])

/-- The program with some main code and the constants of a stage. -/
def Code.toProgram (c : Code) (files : FileSet) (σ : Stage) : Program :=
  { files, main := c.ending.toFunction σ.functions 0 0 false, constants := σ.constants }

/-- The function of the main program, compiled up to its end. -/
def CompileState.mainFunction (t : CompileState) : Function :=
  let d := t.draft.emit Pos.unknown .suspend []
  { id := t.functions, code := d.code, positions := d.positions }

theorem mainFunction_eq (importing : Pos → String → CompileM Unit) (file : File) (s : CompileState)
    (ht : (Compile.topLevel importing file.stmts o s).2 = t) : (Compile.mainFunction importing file o).run s =
      (t.mainFunction, { t with functions := t.functions + 1, draft := {} }) := by
  subst ht
  rfl

/-- The state before anything is compiled. -/
def CompileState.initial (files : FileSet) (symbols : SymbolTable) (functions : Nat) : CompileState :=
  { symbols, files, functions }

/-- The state after the statements of the main program. -/
def CompileState.afterMain (o : CompileOptions) (files : FileSet) (symbols : SymbolTable) (file : File)
    (functions : Nat) : CompileState :=
  (Compile.topLevel (Compile.importer (o.modules.size + 1)) file.stmts o (.initial files symbols functions)).2

/-- What a compilation makes of the state after the statements of the main program. -/
theorem compile_eq (ht : afterMain o files symbols file h.functions = t) : compile o files symbols file h =
      { result :=
          if t.diagnostics.isEmpty then
            .ok (if o.mergeConstants then
                Program.dedup ⟨files, t.mainFunction, t.constants⟩ { h with functions := t.functions + 1 }
              else ⟨files, t.mainFunction, t.constants⟩)
          else .error { diagnostics := t.diagnostics.toList, overflow := t.overflow }
        symbols := t.symbols
        heap := { h with functions := t.functions + 1 } } := by
  rw [compile, compileWith, mainFunction_eq _ file { symbols, files, functions := h.functions } ht]

theorem clean_of_compile (hok : (compile o files symbols file h).result = .ok p) :
    (afterMain o files symbols file h.functions).Clean := by
  rw [compile_eq rfl] at hok
  by_cases hempty : (afterMain o files symbols file h.functions).diagnostics.isEmpty = true
  · exact Array.isEmpty_iff.1 hempty
  · rw [if_neg hempty] at hok
    cases hok

/-- Without complaints, the statements of the main program become the code that `Lowers` describes. -/
theorem lowers_afterMain {functions : Nat} (hclean : (afterMain o files symbols file functions).Clean) :
    ∃ c σ, Lowers o .main (.stmts file.stmts) (.initial symbols functions) c σ ∧
      afterMain o files symbols file functions =
        (initial files symbols functions).advance c σ := by
  have hroom : Room o (o.modules.size + 1) [] := ⟨List.nodup_nil, List.nil_subset _, by simp⟩
  obtain ⟨-, c, σ, hlowers, heq⟩ := meets_topLevel (meets_importer _) file.stmts (.initial files symbols functions)
    hclean
  exact ⟨c, σ, (hlowers hroom).2, heq⟩

/-- A file that compiles becomes the program that `Lowers` describes, with equal constants merged if
that was asked for. -/
theorem lowers_of_compile (hok : (compile o files symbols file h).result = .ok p) :
    ∃ c σ, Lowers o .main (.stmts file.stmts) (.initial symbols h.functions) c σ ∧
      (compile o files symbols file h).symbols = σ.symbols ∧
      (compile o files symbols file h).heap = { h with functions := σ.functions + 1 } ∧
      p = if o.mergeConstants then (c.toProgram files σ).dedup (compile o files symbols file h).heap
        else c.toProgram files σ := by
  have hclean := clean_of_compile hok
  obtain ⟨c, σ, hlowers, heq⟩ := lowers_afterMain hclean
  rw [compile_eq heq] at hok ⊢
  rw [if_pos (Array.isEmpty_iff.2 (heq ▸ hclean)), Except.ok.injEq] at hok
  refine ⟨c, σ, hlowers, rfl, rfl, ?_⟩
  rw [← hok, mainFunction, Draft.emit_eq_plus, draft_advance, ← Draft.plus_seq]
  rfl

end ScriptEngine
