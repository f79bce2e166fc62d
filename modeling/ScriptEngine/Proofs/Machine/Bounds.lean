import ScriptEngine.Proofs.Machine.Laws
/-!
# Sizes of a machine

Whatever code a machine runs, its stack, its cells and its frames stay within the sizes that it was
made with, it keeps its number of globals, and it never allows more allocations than before. That comes
with keeping any law, so it comes with the law that asks for nothing (`ValueLaw.anything`).
-/

namespace ScriptEngine

/-- A machine within the sizes of its configuration. -/
structure Machine.Fits (s : Setting) (m : Machine) : Prop where
  stack : m.stack.size ≤ s.config.stackSize
  cells : m.cells.size ≤ s.config.stackSize
  frames : m.frames.length ≤ max 1 s.config.maxFrames

/-! ### The law that asks for nothing -/

theorem HostAction.obeys_anything (a : HostAction) : a.Obeys .anything := by
  induction a with
  | done r =>
    cases r with
    | ok v => exact v.obeys_anything
    | error f => trivial
  | call callee args next ih =>
    exact ⟨callee.obeys_anything, fun v _ => v.obeys_anything, fun v _ => ih _, fun f => ih _⟩
  | onHeap op next ih =>
    exact ⟨fun h _ => ⟨fun v h' _ => ⟨v.obeys_anything, h'.obeys_anything⟩, fun _ h' _ => h'.obeys_anything⟩,
      fun v _ => ih _, fun f => ih _⟩
  | limits next ih => exact fun l => ih l
  | cancel next ih => exact ih

theorem Task.obeys_anything (t : Task) : t.Obeys .anything := by
  cases t with
  | act a => exact a.obeys_anything
  | call callee args => exact ⟨callee.obeys_anything, fun v _ => v.obeys_anything⟩
  | _ => trivial

namespace ValueLaw

theorem governs_anything (s : Setting) : anything.Governs s where
  permits := permits_anything _
  variadic _ _ _ _ _ := trivial
  host name args _ _ := (s.host name args).obeys_anything

end ValueLaw

/-! ### Machines that are run and called -/

namespace Machine

variable {s : Setting} {m : Machine}

theorem Fits.orderly (h : m.Fits s) : m.Orderly s .anything where
  heap := m.heap.obeys_anything
  globals v _ := v.obeys_anything
  stack v _ := v.obeys_anything
  cells _ _ := trivial
  captures _ _ := trivial
  frames _ _ := trivial
  room := h.stack
  places := h.cells
  depth := h.frames

theorem Orderly.fits {law : ValueLaw} (h : m.Orderly s law) : m.Fits s := ⟨h.room, h.places, h.depth⟩

theorem fits_new (s : Setting) (globals : Array Value) (token : CancelToken) (heap : Heap) :
    (new s globals token heap).Fits s :=
  ⟨Nat.zero_le _, Nat.zero_le _, Nat.zero_le _⟩

theorem fits_reset (s : Setting) (m : Machine) : (m.reset s).Fits s :=
  ⟨Nat.zero_le _, Nat.zero_le _, Nat.zero_le _⟩

/-- The main function is the first call. -/
theorem after_start (s : Setting) (m : Machine) :
    Exec.After s .anything (m.reset s)
      (machineAfter ((do Exec.checkToken; Exec.enter s s.program.main 0 : Exec Unit) (m.reset s))) :=
  (Exec.leaving_start (ValueLaw.governs_anything s) trivial (fits_reset s m).orderly).after

theorem after_run (s : Setting) (fuel : Nat) (m : Machine) :
    Exec.After s .anything (m.reset s) (machineAfter (m.run s fuel)) :=
  Exec.after_run (ValueLaw.governs_anything s) (ValueLaw.follows_anything _) trivial fuel (fits_reset s m).orderly

theorem after_call (fuel : Nat) (callee : Value) (args : List Value) (hm : m.Fits s) :
    Exec.After s .anything m (machineAfter (m.call s fuel callee args)) :=
  (Exec.Keeps.invoke (ValueLaw.governs_anything s) (ValueLaw.follows_anything _) fuel callee.obeys_anything
    (fun v _ => v.obeys_anything) m hm.orderly).after

end Machine

namespace Exec

variable {s : Setting} {offers : Value → List Value → Prop} {x y : Station}

/-- A run that is under way stays so. -/
theorem Leads.busy (h : Leads s offers x y) (hbusy : x.task ≠ .idle) : y.task ≠ .idle := by
  cases h with
  | start | ran | offer | called | abort => exact absurd rfl hbusy
  | _ => exact fun h => by cases h

/-- Every station is within the sizes. -/
theorem Reached.fits {m : Machine} (h : Reached s offers m x) (hm : m.Fits s) :
    x.machine.Fits s ∧ x.machine.globals.size = m.globals.size := by
  obtain ⟨horderly, hglobals⟩ := h.orderly (ValueLaw.governs_anything s) (ValueLaw.follows_anything _) trivial
    (fun callee _ _ => ⟨callee.obeys_anything, fun v _ => v.obeys_anything⟩) hm.orderly
  exact ⟨horderly.fits, hglobals⟩

/-- What is left of the allocations only goes down during a run. -/
theorem spends_of_leads (h : Relation.ReflTransGen (Leads s offers) x y) (hx : x.machine.Fits s)
    (hbusy : x.task ≠ .idle) : x.machine.Spends y.machine := by
  induction h using Relation.ReflTransGen.head_induction_on with
  | refl => exact .refl _
  | head hfirst _ ih =>
    have hafter := (hfirst.after (ValueLaw.governs_anything s) (ValueLaw.follows_anything _) hx.orderly
      (Task.obeys_anything _) hbusy).1
    exact hafter.spends.trans (ih hafter.orderly.fits (hfirst.busy hbusy))

end Exec

end ScriptEngine
