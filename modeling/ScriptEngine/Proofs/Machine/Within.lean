import ScriptEngine.Proofs.Machine.Configurations
import ScriptEngine.Proofs.Machine.Plain
/-!
# What instructions leave alone

Most operations of the machine touch neither the active calls nor the count of instructions nor the
request to stop. `Machine.Kept` says so of two machines, and `Exec.Within` of an execution, for any
relation that all such changes belong to. Main statements: an instruction stays within a relation if its
jump, its call or its return does (`Exec.Within.execute`), and a relation that lets calls begin and the
innermost call change has every step but a return (`Exec.Within.advance`).
-/

namespace ScriptEngine

open Exec

variable {i : Instruction} {R : Machine → Machine → Prop} {floor : Nat} {p : Prop} {α : Type} {f : Value → Exec Value}

/-- The same calls are active in two machines, which have counted as many instructions and know of the
same request to stop. -/
structure Machine.Kept (m m' : Machine) : Prop where
  frames : m'.frames = m.frames
  ticks : m'.ticks = m.ticks
  token : m'.token = m.token

theorem Machine.Kept.refl (m : Machine) : m.Kept m := ⟨rfl, rfl, rfl⟩

theorem Machine.Kept.trans {m1 m2 m3 : Machine} (h : m1.Kept m2) (h' : m2.Kept m3) : m1.Kept m3 :=
  ⟨h'.frames.trans h.frames, h'.ticks.trans h.ticks, h'.token.trans h.token⟩

/-- A relation that has every change of the rest of a machine. -/
structure Calm (R : Machine → Machine → Prop) : Prop where
  kept : ∀ {m m'}, m.Kept m' → R m m'
  trans : ∀ {m1 m2 m3}, R m1 m2 → R m2 m3 → R m1 m3

theorem calm_kept : Calm Machine.Kept := ⟨id, .trans⟩

/-- A relation that also lets calls begin and the innermost call change. -/
structure Lively (R : Machine → Machine → Prop) : Prop extends Calm R where
  enter : ∀ m f, R m { m with frames := f :: m.frames }
  swap : ∀ {m f rest} g, m.frames = f :: rest → R m { m with frames := g :: rest }

namespace Exec

/-- An outcome is within a relation, and a failure has just been made: nobody has added places to it. -/
inductive Settles {α : Type} (R : Machine → Machine → Prop) (m : Machine) : EStateM.Result Halt Machine α → Prop where
  | ok {a : α} {m' : Machine} (h : R m m') : Settles R m (.ok a m')
  | fault {cause : Fault} {m' : Machine} (h : R m m') : Settles R m (.error (.failure { cause }) m')

theorem Settles.after {m : Machine} {r : EStateM.Result Halt Machine α} (h : Settles R m r) : R m (machineAfter r) := by
  cases h with
  | ok h | fault h => exact h

/-- An outcome after a change. -/
theorem Settles.trans {m m' : Machine} {r : EStateM.Result Halt Machine α} (hR : Calm R) (h : R m m')
    (h' : Settles R m' r) : Settles R m r := by
  cases h' with
  | ok h' => exact .ok (hR.trans h h')
  | fault h' => exact .fault (hR.trans h h')

/-- An execution changes a machine within a relation. -/
def Within {α : Type} (R : Machine → Machine → Prop) (x : Exec α) : Prop := ∀ m, Settles R m (x m)

namespace Within

variable {β : Type} {s : Setting} {inv : Invoke} {x : Exec α}

theorem after (hx : Within R x) (m : Machine) : R m (machineAfter (x m)) := (hx m).after

theorem of_ok {a : α} {m m' : Machine} (hx : Within R x) (h : x m = .ok a m') : R m m' := by
  have hafter := hx.after m
  rwa [h] at hafter

theorem cases (hx : Within R x) (m : Machine) :
    (∃ a m', x m = .ok a m' ∧ R m m') ∨ ∃ cause m', x m = .error (.failure { cause }) m' ∧ R m m' := by
  have hsettles := hx m
  generalize x m = r at hsettles
  cases hsettles with
  | @ok a m' h => exact .inl ⟨a, m', rfl, h⟩
  | @fault cause m' h => exact .inr ⟨cause, m', rfl, h⟩

theorem ite [Decidable p] {y : Exec α} (hx : Within R x) (hy : Within R y) : Within R (if p then x else y) := by
  split
  · exact hx
  · exact hy

section Operations

variable (hR : Calm R)
include hR

theorem pure (a : α) : Within R (Pure.pure a) := fun m => .ok (hR.kept (.refl m))

theorem fault (f : Fault) : Within R (fault f : Exec α) := fun m => .fault (hR.kept (.refl m))

theorem bind {f : α → Exec β} (hx : Within R x) (hf : ∀ a, Within R (f a)) : Within R (x >>= f) := by
  intro m
  rcases hx.cases m with ⟨a, m1, hr, h⟩ | ⟨cause, m1, hr, h⟩
  · rw [bind_ok hr]
    exact .trans hR h (hf a m1)
  · rw [bind_error hr]
    exact .fault h

/-- A check before the rest. -/
theorem check [Decidable p] {f : Fault} {rest : Unit → Exec α} (hrest : ∀ u, Within R (rest u)) :
    Within R (if p then Exec.fault f >>= rest else rest ()) := ite (bind hR (fault hR f) hrest) (hrest ())

/-- Two executions after each other. -/
theorem next {y : Exec β} (hx : Within R x) (hy : Within R y) : Within R (do let _ ← x; y) := bind hR hx fun _ => hy

/-! ### Operations -/

theorem onHeap (op : HeapM α) : Within R (onHeap op) := by
  intro m
  rw [Exec.onHeap, takeHeap]
  dsimp only
  cases op m.heap <;> constructor <;> exact hR.kept ⟨rfl, rfl, rfl⟩

theorem inspect (f : Heap → α) : Within R (inspect f) := fun m => .ok (hR.kept (.refl m))

theorem examine (f : Heap → Except Fault α) : Within R (examine f) := by
  intro m
  rw [Exec.examine]
  cases f m.heap <;> constructor <;> exact hR.kept (.refl m)

theorem checkToken : Within R checkToken := by
  intro m
  rw [Exec.checkToken]
  cases m.token.check <;> constructor <;> exact hR.kept (.refl m)

theorem alloc : Within R alloc := by
  intro m
  rw [Exec.alloc]
  split
  · exact .fault (hR.kept (.refl m))
  · split <;> constructor <;> exact hR.kept ⟨rfl, rfl, rfl⟩

theorem push (v : Value) : Within R (push s v) := by
  intro m
  rw [Exec.push]
  split <;> constructor <;> exact hR.kept ⟨rfl, rfl, rfl⟩

theorem pushAll (vs : List Value) : Within R (pushAll s vs) := by
  induction vs with
  | nil => exact pure hR ()
  | cons v rest ih => exact next hR (push hR v) ih

theorem pop : Within R pop := by
  intro m
  rw [Exec.pop]
  cases m.stack.back? <;> constructor <;> exact hR.kept ⟨rfl, rfl, rfl⟩

theorem top : Within R top := by
  intro m
  rw [Exec.top]
  cases m.stack.back? <;> constructor <;> exact hR.kept (.refl m)

theorem popMany (n : Nat) : Within R (popMany n) := by
  intro m
  rw [Exec.popMany]
  split <;> constructor <;> exact hR.kept ⟨rfl, rfl, rfl⟩

theorem frame : Within R frame := by
  intro m
  rw [Exec.frame]
  cases m.frames <;> constructor <;> exact hR.kept (.refl m)

theorem getGlobal (slot : Nat) : Within R (getGlobal slot) := by
  intro m
  rw [Exec.getGlobal]
  cases m.globals[slot]? <;> constructor <;> exact hR.kept (.refl m)

theorem setGlobal (slot : Nat) (v : Value) : Within R (setGlobal slot v) := by
  intro m
  rw [Exec.setGlobal]
  split <;> constructor <;> exact hR.kept ⟨rfl, rfl, rfl⟩

theorem closed : Closed s (Within R) :=
  ⟨pure hR, bind hR, fault hR, onHeap hR, inspect hR, examine hR, alloc hR, push hR, pop hR, popMany hR, getGlobal hR,
    setGlobal hR⟩

theorem discard (hx : Within R x) : Within R (Functor.discard x) := by
  exact next hR hx (pure hR _)

theorem read : Within R (get) := fun m => .ok (hR.kept (.refl m))

theorem localPlace (index : Nat) : Within R (localPlace index) :=
  bind hR (frame hR) fun _ => bind hR (read hR) fun _ => check hR fun _ => pure hR _

/-- The cell of a place decides what is done with a variable. -/
theorem atCell {index : Nat} {some : Nat → Addr → Exec α} {none : Nat → Exec α}
    (hsome : ∀ place cell, Within R (some place cell)) (hnone : ∀ place, Within R (none place)) :
    Within R (do
      let place ← Exec.localPlace index
      match ← cellAt place with
      | .some cell => some place cell
      | .none => none place) := by
  refine bind hR (localPlace hR index) fun place => bind hR (fun m => .ok (hR.kept (.refl m))) fun cell => ?_
  cases cell with
  | none => exact hnone place
  | some cell => exact hsome place cell

theorem getLocal (index : Nat) : Within R (getLocal index) :=
  atCell hR (fun _ _ => inspect hR _) fun _ => bind hR (read hR) fun _ => pure hR _

theorem setLocal (index : Nat) (v : Value) : Within R (setLocal index v) :=
  atCell hR (fun _ _ => onHeap hR _) fun _ _ => .ok (hR.kept ⟨rfl, rfl, rfl⟩)

theorem defineLocal (index : Nat) (v : Value) : Within R (defineLocal index v) :=
  bind hR (localPlace hR index) fun _ _ => .ok (hR.kept ⟨rfl, rfl, rfl⟩)

theorem captureLocal (index : Nat) : Within R (captureLocal index) := by
  refine atCell hR (fun _ cell => pure hR cell) fun place => bind hR (read hR) fun m => ?_
  exact bind hR (onHeap hR _) fun cell => next hR (fun m => .ok (hR.kept ⟨rfl, rfl, rfl⟩)) (pure hR cell)

theorem captured (index : Nat) : Within R (captured index) := by
  refine bind hR (frame hR) fun f => ?_
  cases f.func.captured[index]? with
  | some cell => exact pure hR cell
  | none => exact fault hR _

/-- Cells that are about to be captured. -/
theorem modifyCaptures (f : Array Addr → Array Addr) :
    Within R (modify fun m => { m with captures := f m.captures }) :=
  fun _ => .ok (hR.kept ⟨rfl, rfl, rfl⟩)

theorem reserveLocals (f : Function) (base : Nat) : Within R (reserveLocals s f base) := by
  intro m
  rw [Exec.reserveLocals]
  split <;> constructor <;> exact hR.kept ⟨rfl, rfl, rfl⟩

theorem collectRest (f : Function) (n : Nat) : Within R (Exec.collectRest s f n) := by
  refine ite ?_ (pure hR n)
  refine check hR fun _ => bind hR (popMany hR _) fun _ => next hR (alloc hR) ?_
  exact bind hR (onHeap hR _) fun _ => next hR (push hR _) (pure hR _)

theorem takeArguments (n : Nat) : Within R (takeArguments n) :=
  next hR (checkToken hR) (bind hR (popMany hR n) fun _ => next hR (discard hR (pop hR)) (pure hR _))

theorem offer (callee : Value) (args : List Value) : Within R (offer s callee args) :=
  next hR (checkToken hR) (next hR (push hR callee) (pushAll hR args))

theorem spread (n : Nat) : Within R (spread s n) := by
  refine bind hR (pop hR) fun last => ?_
  cases last with
  | array a | frozenArray a => exact bind hR (inspect hR _) fun _ => next hR (pushAll hR _) (pure hR _)
  | _ => exact fault hR _

/-! ### Instructions -/

theorem makeClosure (index n : Nat) : Within R (Exec.makeClosure s index n) := by
  rw [Exec.makeClosure]
  split
  · refine bind hR (read hR) fun m => check hR fun _ => ?_
    refine next hR (modifyCaptures hR (·.shrink _)) (next hR (alloc hR) ?_)
    exact bind hR (onHeap hR _) fun _ => push hR _
  · exact fault hR _

/-- An instruction does what its jump, its call or its return does, apart from changes that belong to
every calm relation. -/
theorem execute (hjump : i.op.isJump = true → Within R (jump i.first))
    (hcall : i.op = .call → Within R (Exec.call s inv i.first (i.second != 0)))
    (hret : i.op = .ret → ∀ v, Within R (leave s floor v)) : Within R (Exec.execute s inv floor i) := by
  have hclosed := closed (s := s) hR
  have hend : Within R (Pure.pure Flow.goOn) := pure hR _
  have hpush : ∀ v, Within R (do Exec.push s v; return Flow.goOn) := fun v => next hR (push hR v) hend
  have hassign : ∀ target v selectors, Within R (do Exec.assignPart target v selectors; return Flow.goOn) :=
    fun target v selectors => next hR (hclosed.assignPart target v selectors) hend
  by_cases hplain : i.op.isPlain = true
  · rw [execute_eq_steady (by simp [Opcode.isSteady, hplain])]
    exact hclosed.plain hplain
  obtain ⟨offset, op, operands⟩ := i
  cases op with
  | jumpFalsy =>
    exact bind hR (pop hR) fun _ => bind hR (inspect hR _) fun _ => ite (next hR (hjump rfl) hend) hend
  | andJump =>
    refine bind hR (top hR) fun _ => bind hR (inspect hR _) fun _ => ?_
    exact ite (next hR (hjump rfl) hend) (next hR (discard hR (pop hR)) hend)
  | orJump =>
    refine bind hR (top hR) fun _ => bind hR (inspect hR _) fun _ => ?_
    exact ite (next hR (discard hR (pop hR)) hend) (next hR (hjump rfl) hend)
  | jump => exact next hR (hjump rfl) hend
  | call => exact next hR (hcall rfl) hend
  | ret =>
    rw [execute_ret]
    exact bind hR (ite (pop hR) (pure hR _)) fun v => hret rfl v
  | getLocal => exact bind hR (getLocal hR _) fun _ => hpush _
  | setLocal => exact bind hR (pop hR) fun _ => next hR (setLocal hR _ _) hend
  | defineLocal => exact bind hR (pop hR) fun _ => next hR (defineLocal hR _ _) hend
  | setSelLocal => exact bind hR (hclosed.popSelectors _) fun _ => bind hR (getLocal hR _) fun _ => hassign _ _ _
  | getFree => exact bind hR (captured hR _) fun _ => bind hR (inspect hR _) fun _ => hpush _
  | setFree => exact bind hR (pop hR) fun _ => bind hR (captured hR _) fun _ => next hR (onHeap hR _) hend
  | captureFree => exact bind hR (captured hR _) fun _ => next hR (modifyCaptures hR (·.push _)) hend
  | captureLocal => exact bind hR (captureLocal hR _) fun _ => next hR (modifyCaptures hR (·.push _)) hend
  | setSelFree =>
    refine bind hR (hclosed.popSelectors _) fun _ => bind hR (captured hR _) fun _ => ?_
    exact bind hR (inspect hR _) fun _ => hassign _ _ _
  | closure => exact next hR (makeClosure hR _ _) hend
  | suspend => exact pure hR _
  | _ => exact absurd rfl hplain

end Operations

/-! ### Calls -/

section Calls

variable (hR : Lively R)
include hR

theorem jump (target : Nat) : Within R (jump target) := by
  intro m
  rw [Exec.jump]
  cases hframes : m.frames with
  | nil => exact .fault (hR.kept (.refl m))
  | cons f rest => exact .ok (hR.swap _ hframes)

theorem fetch : Within R fetch := by
  intro m
  rw [Exec.fetch]
  cases hframes : m.frames with
  | nil => exact .fault (hR.kept (.refl m))
  | cons f rest =>
    dsimp only
    split
    · exact .fault (hR.kept (.refl m))
    · split
      · exact .fault (hR.kept (.refl m))
      · exact .ok (hR.swap _ hframes)

theorem enter (f : Function) (base : Nat) : Within R (enter s f base) :=
  next hR.toCalm (reserveLocals hR.toCalm f base) fun m => .ok (hR.enter m _)

theorem beginCall (f : Function) (mayReuse : Bool) (n : Nat) : Within R (beginCall s f mayReuse n) := by
  intro m
  rw [Exec.beginCall]
  split
  · exact .fault (hR.kept (.refl m))
  · split
    · next frame outer hreuse =>
      refine .trans hR.toCalm (hR.swap { frame with func := f, next := 0 } (eq_of_reusable hreuse)) ?_
      refine .trans hR.toCalm ?_ (reserveLocals hR.toCalm f frame.base _)
      exact hR.kept ⟨rfl, rfl, rfl⟩
    · split
      · exact .fault (hR.kept (.refl m))
      · exact enter hR f _ m

theorem callFunction (f : Function) (n : Nat) (mayReuse : Bool) : Within R (callFunction s f n mayReuse) := by
  rw [callFunction_eq]
  exact bind hR.toCalm (collectRest hR.toCalm f n) fun n => beginCall hR f mayReuse n

theorem reach (n : Nat) (callee : Value) : Within R (reach s n callee) := by
  cases callee with
  | function f => exact next hR.toCalm (callFunction hR f n true) (pure hR.toCalm _)
  | native f => exact bind hR.toCalm (takeArguments hR.toCalm n) fun _ => pure hR.toCalm _
  | _ => exact fault hR.toCalm _

/-- A step after its instruction was read. -/
theorem advance (hret : i.op = .ret → ∀ v, Within R (leave s floor v)) : Within R (Exec.advance s floor i) := by
  unfold Exec.advance
  split
  · refine bind hR.toCalm (ite (spread hR.toCalm _) (pure hR.toCalm _)) fun n m => ?_
    rw [approach]
    split
    · exact .fault (hR.kept (.refl m))
    · exact reach hR n _ m
  · next hop =>
    refine bind hR.toCalm ?_ fun _ => pure hR.toCalm _
    exact execute hR.toCalm (fun _ => jump hR _) (fun hcall => (hop hcall).elim) hret

end Calls

end Within

/-- A call gets to a function of the program or to a native one. -/
theorem approach_ok {s : Setting} {n : Nat} {pause : Pause} {m m' : Machine} (h : approach s n m = .ok pause m') :
    (∃ f, m.stack.getD (m.stack.size - (n + 1)) .undefined = .function f ∧ callFunction s f n true m = .ok () m' ∧
      pause = .flow .goOn) ∨
    ∃ f args, m.stack.getD (m.stack.size - (n + 1)) .undefined = .native f ∧ takeArguments n m = .ok args m' ∧
      pause = .native f args.toList := by
  rw [approach] at h
  split at h
  · cases h
  · generalize m.stack.getD (m.stack.size - (n + 1)) .undefined = callee at h ⊢
    cases callee with
    | function f =>
      obtain ⟨u, m1, hcall, hend⟩ := bind_eq_ok h
      cases hend
      exact .inl ⟨f, rfl, hcall, rfl⟩
    | native f =>
      obtain ⟨args, m1, htake, hend⟩ := bind_eq_ok h
      cases hend
      exact .inr ⟨f, args, rfl, htake, rfl⟩
    | _ => cases h

end Exec

end ScriptEngine
