import ScriptEngine.Proofs.Compiler.Files
import ScriptEngine.Proofs.Compiler.Traversal
/-!
# Merging is the last step

Whether equal constants are merged makes no difference to how a file is compiled: a compilation with merging
makes the program of the one without, with its constants merged (`result_merging`).
-/

namespace ScriptEngine

open CompileM

/-- The options with equal constants merged or not. -/
def CompileOptions.merging (o : CompileOptions) (b : Bool) : CompileOptions := { o with mergeConstants := b }

/-- Compiles the same whether equal constants are merged later or not. -/
def Unmerged {α : Type} (x : CompileM α) : Prop := ∀ o b, x (o.merging b) = x o

theorem parametric_unmerged : Parametric fun x x' => ∀ o b, x (CompileOptions.merging o b) = x' o where
  pure _ _ _ := rfl
  bind {α β x x' f f'} hx hf o b := by
    show (x (o.merging b) >>= fun a => f a (o.merging b)) = (x' o >>= fun a => f' a o)
    rw [hx o b]
    exact congrArg _ (funext fun a => hf a o b)
  act _ _ _ := rfl
  complain _ _ _ _ := rfl
  isFull _ _ := rfl

section Files

variable {importing : Pos → String → CompileM Unit} (himport : ∀ pos name, Unmerged (importing pos name))

include himport

theorem unmerged_moduleFunction (name : String) (file : File) :
    Unmerged (Compile.moduleFunction importing name file) := by
  have hP := parametric_unmerged
  have hmodify : ∀ f, Unmerged (modify f) := fun _ _ _ => rfl
  refine hP.bind (hmodify _) fun _ => hP.bind (hP.onSymbols _) fun _ => hP.bind (hP.onSymbols _) fun scope => ?_
  refine hP.bind (hP.inScope scope (hP.moduleDraft himport file)) fun draft => ?_
  exact hP.bind (hmodify _) fun _ => hP.bind hP.newFunctionId fun _ => hP.bind hP.get fun _ => hP.pure _

theorem unmerged_importedFunction (name : String) (file : File) :
    Unmerged (Compile.importedFunction importing name file) := by
  have hP := parametric_unmerged
  have hmodify : ∀ f, Unmerged (modify f) := fun _ _ _ => rfl
  refine hP.bind hP.get fun s => ?_
  cases s.imported.lookup name with
  | some f => exact hP.pure _
  | none => exact hP.bind (unmerged_moduleFunction himport name file) fun _ => hP.bind (hmodify _) fun _ => hP.pure _

theorem unmerged_importModule (pos : Pos) (name : String) : Unmerged (Compile.importModule importing pos name) := by
  have hP := parametric_unmerged
  intro o b
  have hfound : ∀ found, Unmerged (importFound importing pos name found) := by
    intro found
    cases found with
    | none => exact hP.complain pos _
    | some m =>
      cases m with
      | native attributes => exact hP.emitConstant pos attributes
      | source file =>
        exact hP.bind hP.get fun _ => hP.ite (hP.complain pos _)
          (hP.bind (unmerged_importedFunction himport name file) fun _ => hP.bind (hP.emitConstant pos _) fun _ =>
            hP.emit pos _ _)
  exact hfound (o.modules.find? name) o b

theorem unmerged_mainFunction (file : File) : Unmerged (Compile.mainFunction importing file) := by
  have hP := parametric_unmerged
  refine hP.bind (hP.discard (hP.topLevel himport file.stmts)) fun _ => hP.bind (hP.emit _ _ _) fun _ =>
    hP.bind hP.newFunctionId fun _ => hP.bind ?_ fun _ => hP.pure _
  exact fun _ _ => rfl

end Files

theorem unmerged_importer (fuel : Nat) (pos : Pos) (name : String) : Unmerged (Compile.importer fuel pos name) := by
  induction fuel generalizing pos name with
  | zero => exact fun _ _ => rfl
  | succ fuel ih => exact unmerged_importModule ih pos name

variable (o : CompileOptions) (files : FileSet) (symbols : SymbolTable) (file : File) (h : Heap)

/-- A compilation with merging makes the program of the one without, with its equal constants merged. -/
theorem result_merging : (compile (o.merging true) files symbols file h).result =
    (compile (o.merging false) files symbols file h).result.map
      (·.dedup (compile (o.merging false) files symbols file h).heap) := by
  have hsize : ∀ b, (o.merging b).modules = o.modules := fun _ => rfl
  simp only [compile, compileWith, hsize, unmerged_mainFunction (unmerged_importer _) file o _]
  generalize StateT.run (Compile.mainFunction _ file o) _ = compiled
  obtain ⟨main, s⟩ := compiled
  by_cases hclean : s.diagnostics.isEmpty = true
  · simp only [if_pos hclean]
    rfl
  · simp only [if_neg hclean]
    rfl

end ScriptEngine
