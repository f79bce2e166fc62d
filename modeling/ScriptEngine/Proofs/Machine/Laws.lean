import ScriptEngine.Proofs.Machine.Lockstep
import ScriptEngine.Proofs.Machine.Stations
/-!
# Machines keep the laws of values

All that a machine holds obeys a law (`Machine.Obeys`): what is on its stack, in its globals, in cells and
in its heap. A machine that is tied to itself does the same as itself, so no operation of the machine breaks
such a law (`Exec.Keeps`), no instruction does whose operands obey it (`Instruction.Lawful`), and no run. On the
way a machine stays within its sizes, it keeps its number of globals, and it never allows more allocations than
before.
-/

namespace ScriptEngine

variable {a : Addr} {f : Function} {m m' : Machine} {n : Nat} {s : Setting} {α : Type} {v : Value} {law : ValueLaw}

/-- All that a machine holds obeys a law, and its stack is within its size. -/
structure Machine.Obeys (s : Setting) (law : ValueLaw) (m : Machine) : Prop where
  heap : m.heap.Obeys law
  globals : ∀ v ∈ m.globals, v.Obeys law
  stack : ∀ v ∈ m.stack, v.Obeys law
  cells : ∀ a, some a ∈ m.cells → law.cells a
  captures : ∀ a ∈ m.captures, law.cells a
  frames : ∀ f ∈ m.frames, law.code f.func
  room : m.stack.size ≤ s.config.stackSize

/-- Besides, the cells and the calls are within the sizes. -/
structure Machine.Orderly (s : Setting) (law : ValueLaw) (m : Machine) : Prop extends m.Obeys s law where
  places : m.cells.size ≤ s.config.stackSize
  depth : m.frames.length ≤ max 1 s.config.maxFrames

/-- A machine that comes after another one has as many globals, and no more allocations are left; a
number of allocations does not become negative, which would mean any number. -/
structure Machine.Spends (m m' : Machine) : Prop where
  globals : m'.globals.size = m.globals.size
  allocs : m'.allocs ≤ m.allocs
  nonneg : 0 ≤ m.allocs → 0 ≤ m'.allocs

theorem Machine.Spends.of_eq (hglobals : m'.globals.size = m.globals.size)
    (hallocs : m'.allocs = m.allocs) : m.Spends m' :=
  ⟨hglobals, Int.le_of_eq hallocs, fun h => hallocs ▸ h⟩

theorem Machine.Spends.refl (m : Machine) : m.Spends m := .of_eq rfl rfl

theorem Machine.Spends.trans {m1 m2 m3 : Machine} (h : m1.Spends m2) (h' : m2.Spends m3) : m1.Spends m3 where
  globals := h'.globals.trans h.globals
  allocs := Int.le_trans h'.allocs h.allocs
  nonneg h1 := h'.nonneg (h.nonneg h1)

theorem Machine.Obeys.reset (hm : m.Obeys s law) : (m.reset s).Orderly s law where
  heap := hm.heap
  globals := hm.globals
  stack := by simp [Machine.reset]
  cells := by simp [Machine.reset]
  captures := by simp [Machine.reset]
  frames := by simp [Machine.reset]
  room := Nat.zero_le _
  places := Nat.zero_le _
  depth := Nat.zero_le _

/-- What is done next obeys a law. -/
def Task.Obeys (law : ValueLaw) : Task → Prop
  | .act a => a.Obeys law
  | .call callee args => callee.Obeys law ∧ ∀ v ∈ args, v.Obeys law
  | _ => True

theorem Program.constant_of_functionAt? {p : Program} {i : Nat} (h : p.functionAt? i = some f) :
    p.constants[i]? = some (.function f) := by
  rw [Program.functionAt?] at h
  split at h
  · next g hg =>
    cases h
    exact hg
  · cases h

/-! ### Machines tied to themselves -/

section Unmoved

variable {allowed : Int}

theorem Value.Tied.eq_of_unmoved {v w : Value} (h : v.Tied (law.tie n allowed) w) : v = w :=
  Value.corresponds_unmoved_iff.1 h.corresponds

theorem Heap.Linked.eq_of_unmoved {h1 h2 : Heap} (h : h1.Linked (law.tie n allowed) h2) : h1 = h2 :=
  Heap.eq_of_corresponds h.corresponds ((Pointwise.eq_iff Value.corresponds_unmoved_iff).1 h.contents) (h.newFunction 0)

theorem Heap.Obeys.linked {h : Heap} (hh : h.Obeys law) : h.Linked (law.tie n allowed) h :=
  ⟨hh.tied, (Pointwise.eq_iff Value.corresponds_unmoved_iff).2 rfl, fun _ => rfl⟩

theorem HostAction.Obeys.tied {act : HostAction} {limits : Limits} (h : act.Obeys law) :
    act.Tied (law.tie n allowed) limits limits act := by
  induction act with
  | done r =>
    cases r with
    | ok v => exact .give (Value.Obeys.tied h)
    | error f => exact .fail f
  | call callee args next ih =>
    obtain ⟨hcallee, hargs, hok, herror⟩ := h
    refine .call (fun _ h => h) hcallee.tied (Value.Obeys.tied_list hargs) (fun v w hv => ?_) fun f => ih _ (herror f)
    rw [← hv.eq_of_unmoved]
    exact ih _ (hok v hv.obeys)
  | onHeap op next ih =>
    obtain ⟨hop, hok, herror⟩ := h
    refine .onHeap (fun h1 h2 hh => ?_) (fun v w hv => ?_) fun f => ih _ (herror f)
    · rw [← hh.eq_of_unmoved]
      obtain ⟨hopOk, hopError⟩ := hop h1 hh.obeys
      cases hr : op h1 with
      | ok v h => exact .inl ⟨v, v, h, h, rfl, rfl, (hopOk v h hr).1.tied, (hopOk v h hr).2.linked⟩
      | error f h => exact .inr ⟨f, h, h, rfl, rfl, (hopError f h hr).linked⟩
    · rw [← hv.eq_of_unmoved]
      exact ih _ (hok v hv.obeys)
  | limits next ih => exact .limits (ih _ (h limits))
  | cancel next ih => exact .cancel (ih h)

theorem ValueLaw.Governs.tied (hs : law.Governs s) : s.Tied (law.tie n allowed) s where
  files := rfl
  runs := Correspondence.runs_unmoved _
  main := rfl
  limits := hs.permits.tied
  allocs := .inl rfl
  stackSize := .inl rfl
  maxFrames := .inl rfl
  interval := rfl
  reuse := rfl
  variadic := hs.variadic
  host name args args' hname hargs := by
    have hsame : args = args' := List.forall₂_eq_eq_eq ▸ hargs.imp fun _ _ h => h.eq_of_unmoved
    rw [← hsame] at hargs ⊢
    exact (hs.host name args hname fun v hv => (List.forall₂_same.1 hargs v hv).obeys).tied

theorem Machine.Orderly.tied (hm : m.Orderly s law) : m.Tied (law.tie m.globals.size m.allocs) s m where
  heap := hm.heap.linked
  globals := .refl fun v hv => (hm.globals v hv).tied
  count := rfl
  stack := .refl fun v hv => (hm.stack v hv).tied
  room := hm.room
  cells := .refl fun _ hc => ⟨rfl, fun a ha => hm.cells a (ha ▸ hc)⟩
  places := hm.places
  captures := .refl fun a ha => ⟨hm.captures a ha, rfl⟩
  frames := List.forall₂_same.2 fun f hf => ⟨rfl, hm.frames f hf, trivial, rfl, rfl, rfl⟩
  depth := hm.depth
  allocs := ⟨0, spent_zero _, spent_zero _⟩
  ticks := rfl
  token := rfl
  status := rfl

theorem Machine.Tied.orderly {τ : Tie} (h : m.Tied τ s m') : m.Orderly s τ.law where
  heap := h.heap.obeys
  globals := h.globals.obeys
  stack := h.stack.obeys
  cells a ha := Pointwise.forall_left (h.cells.imp fun _ _ h => h.symm) _ ha a rfl
  captures := h.captures.forall_left
  frames f hf := ((List.forall₂_and_left _ _).1 (h.frames.imp fun _ _ h => ⟨h.code, h⟩)).1 f hf
  room := h.room
  places := h.places
  depth := h.depth

end Unmoved

namespace Exec

/-- An outcome leaves a machine of some kind, and the result, if there is one, has a property. -/
inductive Leaving {α : Type} (J : Machine → Prop) (R : α → Prop) : EStateM.Result Halt Machine α → Prop where
  | ok {a : α} {m : Machine} (ha : R a) (hm : J m) : Leaving J R (.ok a m)
  | error {e : Halt} {m : Machine} (hm : J m) : Leaving J R (.error e m)

/-- A machine after another one, in order. -/
structure After (s : Setting) (law : ValueLaw) (m m' : Machine) : Prop where
  orderly : m'.Orderly s law
  spends : m.Spends m'

theorem After.trans {m1 m2 m3 : Machine} (h : After s law m1 m2) (h' : After s law m2 m3) :
    After s law m1 m3 := ⟨h'.orderly, h.spends.trans h'.spends⟩

theorem After.same (hm : m.Orderly s law) : After s law m m := ⟨hm, .refl m⟩

/-- A change of neither the globals nor the allocations. -/
theorem After.change (hm : m'.Orderly s law) (hglobals : m'.globals = m.globals)
    (hallocs : m'.allocs = m.allocs) : After s law m m' := ⟨hm, .of_eq (by rw [hglobals]) hallocs⟩

theorem Leaving.trans {R : α → Prop} {r : EStateM.Result Halt Machine α}
    (h : After s law m m') (h' : Leaving (After s law m') R r) : Leaving (After s law m) R r := by
  cases h' with
  | ok ha hm => exact .ok ha (h.trans hm)
  | error hm => exact .error (h.trans hm)

/-- An execution keeps a law. -/
def Keeps {α : Type} (s : Setting) (law : ValueLaw) (R : α → Prop) (x : Exec α) : Prop :=
  ∀ m, m.Orderly s law → Leaving (After s law m) R (x m)

namespace Keeps

variable {α β : Type} {s : Setting} {R : α → Prop} {R' : β → Prop} {x : Exec α}

theorem pure {a : α} (h : R a) : Keeps s law R (Pure.pure a) := fun _ hm => .ok h (.same hm)

theorem bind {f : α → Exec β} (hx : Keeps s law R x) (hf : ∀ a, R a → Keeps s law R' (f a)) :
    Keeps s law R' (x >>= f) := by
  intro m hm
  have hfirst := hx m hm
  generalize hr : x m = r at hfirst
  cases hfirst with
  | ok ha hm' =>
    rw [bind_ok hr]
    exact .trans hm' (hf _ ha _ hm'.orderly)
  | error hm' =>
    rw [bind_error hr]
    exact .error hm'

theorem ite {p : Prop} [Decidable p] {y : Exec α} (hx : Keeps s law R x) (hy : Keeps s law R y) :
    Keeps s law R (if p then x else y) := by
  split
  · exact hx
  · exact hy

end Keeps

/-- Machines at the end of what a machine that is tied to itself does. -/
theorem leaving_of_outcome {R : α → Prop} {R' : α → α → Prop} {r : EStateM.Result Halt Machine α}
    (h : Outcome (law.tie m.globals.size m.allocs) s R' r r) (hR : ∀ a b, R' a b → R a) :
    Leaving (After s law m) R r := by
  have hafter : ∀ {m1 m2 : Machine}, m1.Tied (law.tie m.globals.size m.allocs) s m2 → After s law m m1 := by
    intro m1 m2 hm
    obtain ⟨n, hspent, -⟩ := hm.allocs
    have hspent : Spent n m.allocs m1.allocs := hspent
    unfold Spent at hspent
    exact ⟨hm.orderly, hm.count, by omega, by omega⟩
  cases r with
  | ok a m1 =>
    cases h with
    | ok ha hm => exact .ok (hR _ _ ha) (hafter hm)
  | error e m1 =>
    cases h with
    | error hm => exact .error (hafter hm)
    | excused h => exact h.elim

namespace Keeps

variable {R : α → Prop} {x : Exec α}

/-- Machines that are tied to themselves do the same as themselves. -/
theorem of_agree {Q : Tie → α → α → Prop} (h : ∀ n a, Agree (law.tie n a) s (Q (law.tie n a)) x x)
    (hR : ∀ n a y z, Q (law.tie n a) y z → R y) : Keeps s law R x :=
  fun m hm => leaving_of_outcome (h _ _ m m hm.tied) (hR _ _)

/-- An execution whose result is not a value of the script. -/
theorem same (h : ∀ n a, Agree (law.tie n a) s Eq x x) : Keeps s law (fun _ => True) x :=
  of_agree (Q := fun _ => Eq) h fun _ _ _ _ _ => trivial

/-- An execution that gives a value of the script. -/
theorem value {x : Exec Value} (h : ∀ n a, Agree (law.tie n a) s (Value.Tied (law.tie n a)) x x) :
    Keeps s law (Value.Obeys law) x :=
  of_agree h fun _ _ _ _ h => h.obeys

theorem onHeap {op : HeapM Value} (hop : HeapM.Keeps law (Value.Obeys law) op) :
    Keeps s law (Value.Obeys law) (Exec.onHeap op) := by
  intro m hm
  obtain ⟨hok, herror⟩ := hop m.heap hm.heap
  simp only [Exec.onHeap, takeHeap]
  cases hr : op m.heap with
  | ok a h => exact .ok (hok a h hr).1 (.change { hm with heap := (hok a h hr).2 } rfl rfl)
  | error c h => exact .error (.change { hm with heap := herror c h hr } rfl rfl)

theorem checkToken : Keeps s law (fun _ => True) Exec.checkToken := same fun _ _ => .checkToken

theorem pop : Keeps s law (Value.Obeys law) Exec.pop := value fun _ _ => .pop

theorem takeArguments (n : Nat) : Keeps s law (fun args => ∀ v ∈ args, v.Obeys law) (Exec.takeArguments n) :=
  of_agree (Q := fun τ => Pointwise (Value.Tied τ)) (fun _ _ => Agree.checkToken.bind fun _ _ _ =>
    (Agree.popMany n).bind fun _ _ hargs => Agree.pop.discard.bind fun _ _ _ => .pure hargs.1)
    fun _ _ _ _ h => h.obeys

theorem obeys_getD (hm : m.Orderly s law) (place : Nat) : (m.stack.getD place .undefined).Obeys law := by
  rw [Array.getD_eq_getD_getElem?]
  cases hv : m.stack[place]? with
  | none => exact trivial
  | some v => exact hm.stack v (Array.mem_of_getElem? hv)

/-- A change of the innermost frame that leaves its function. -/
theorem after_frame (hm : m.Orderly s law) {f g : Frame} {rest : List Frame} (hframes : m.frames = f :: rest)
    (hg : g.func = f.func) : After s law m { m with frames := g :: rest } := by
  have hall := hm.frames
  have hdepth := hm.depth
  rw [hframes] at hdepth
  rw [hframes, List.forall_mem_cons] at hall
  exact .change { hm with frames := List.forall_mem_cons.2 ⟨hg ▸ hall.1, hall.2⟩, depth := hdepth } rfl rfl

theorem fetch (hcode : law.Follows s.program) : Keeps s law (Instruction.Lawful law s.program) Exec.fetch := by
  intro m hm
  cases hframes : m.frames with
  | nil =>
    rw [Exec.fetch, hframes]
    exact .error (.same hm)
  | cons f rest =>
    rw [fetch_eq hframes]
    cases hi : f.func.instructionAt f.next with
    | error c => exact .error (.same hm)
    | ok i =>
      exact .ok (hcode f.func (hm.frames f (hframes ▸ .head _)) _ i hi) (after_frame hm hframes rfl)

theorem obeys_returned {τ : Tie} {flow flow' : Flow} (h : FlowsMatch τ flow flow') (v : Value) (hv : flow = .returned v) :
    v.Obeys τ.law := by
  cases h with
  | returned h =>
    cases hv
    exact h.obeys
  | _ => cases hv

section Governed

variable (hs : law.Governs s)

include hs

theorem tick : Keeps s law (fun _ => True) (Exec.tick s) := same fun _ _ => agree_tick hs.tied

theorem alloc : Keeps s law (fun _ => True) Exec.alloc := same fun _ _ => .alloc hs.tied

theorem push (hv : v.Obeys law) : Keeps s law (fun _ => True) (Exec.push s v) := same fun _ _ => .push hs.tied hv.tied

theorem pushAll {vs : List Value} (hvs : ∀ v ∈ vs, v.Obeys law) : Keeps s law (fun _ => True) (Exec.pushAll s vs) :=
  same fun _ _ => .pushAll hs.tied (Value.Obeys.tied_list hvs)

theorem offer {args : List Value} (hv : v.Obeys law) (hargs : ∀ w ∈ args, w.Obeys law) :
    Keeps s law (fun _ => True) (Exec.offer s v args) :=
  checkToken.bind fun _ _ => (push hs hv).bind fun _ _ => pushAll hs hargs

theorem spread (n : Nat) : Keeps s law (fun _ => True) (Exec.spread s n) := same fun _ _ => agree_spread hs.tied n

theorem callFunction (hf : law.function f) (n : Nat) (mayReuse : Bool) :
    Keeps s law (fun _ => True) (Exec.callFunction s f n mayReuse) :=
  same fun _ _ => agree_callFunction hs.tied rfl hf n mayReuse

/-- An instruction that calls nothing keeps the law if it is lawful. -/
theorem execute {inv : Invoke} (floor : Nat) {i : Instruction} (hi : i.Lawful law s.program) (hcall : i.op ≠ .call) :
    Keeps s law (fun flow => ∀ w, flow = .returned w → w.Obeys law) (Exec.execute s inv floor i) :=
  fun _ hm => leaving_of_outcome (agree_fetched hs.tied (fun h => absurd h hcall) floor (i.corresponds_unmoved _) hi hm.tied
    fun _ _ _ _ _ _ _ => trivial) fun _ _ => obeys_returned

variable (hcode : law.Follows s.program)

include hcode

/-- No run and no call breaks the law. -/
theorem invoke (fuel : Nat) (hv : v.Obeys law) {args : List Value} (hargs : ∀ w ∈ args, w.Obeys law) :
    Keeps s law (Value.Obeys law) (Exec.invoke s fuel v args) :=
  value fun _ _ => (agree_loops hs.tied hcode fuel).2 v v args args hv.tied (Value.Obeys.tied_list hargs)

theorem step (fuel floor : Nat) : Keeps s law (fun _ => True) (Exec.step s (Exec.invoke s fuel) floor) :=
  of_agree (fun _ _ => agree_step hs.tied hcode (agree_loops hs.tied hcode fuel).2 floor)
    fun _ _ _ _ _ => trivial

end Governed

end Keeps

/-! ### Stations -/

theorem Leaving.after {J : Machine → Prop} {R : α → Prop} {r : EStateM.Result Halt Machine α}
    (h : Leaving J R r) : J (machineAfter r) := by
  cases h with
  | ok _ hm | error hm => exact hm

theorem Keeps.leaving {R : α → Prop} {x : Exec α} {a : α}
    (hx : Keeps s law R x) (hm : m.Orderly s law) (h : x m = .ok a m') : R a ∧ After s law m m' := by
  have houtcome := hx m hm
  rw [h] at houtcome
  cases houtcome with
  | ok ha hm' => exact ⟨ha, hm'⟩

section Stations

variable {s : Setting} {offers : Value → List Value → Prop} {x y : Station} (hs : law.Governs s)
  (hcode : law.Follows s.program) (hmain : law.code s.program.main)
  (hoffers : ∀ callee args, offers callee args → callee.Obeys law ∧ ∀ v ∈ args, v.Obeys law)

include hmain

include hs

/-- The main function is the first call. -/
theorem leaving_start (hm : (m.reset s).Orderly s law) :
    Leaving (After s law (m.reset s)) (fun _ => True)
      ((do checkToken; enter s s.program.main 0 : Exec Unit) (m.reset s)) :=
  leaving_of_outcome (outcome_begin hs.tied hmain hm.tied) fun _ _ _ => trivial

include hcode

theorem after_run (fuel : Nat) (hm : (m.reset s).Orderly s law) :
    After s law (m.reset s) (machineAfter (m.run s fuel)) :=
  (leaving_of_outcome (outcome_run hs.tied hcode hmain fuel hm.tied) fun _ _ _ => trivial).after

omit hmain in
theorem Asks.after {a : HostAction} (h : Asks s m a m') (hm : m.Orderly s law) : After s law m m' ∧ a.Obeys law := by
  obtain ⟨i, m1, n, m2, name, args, hfetch, -, hspread, -, hcallee, htake, rfl⟩ := h
  have h1 := ((Keeps.tick hs).bind fun _ _ => Keeps.fetch hcode).leaving hm hfetch
  have h2 := (Keeps.ite (R := fun _ => True) (Keeps.spread hs _) (Keeps.pure trivial)).leaving h1.2.orderly hspread
  have h3 := (Keeps.takeArguments n).leaving h2.2.orderly htake
  have hnative : law.native (.host name) := by
    have hobeys := Keeps.obeys_getD h2.2.orderly (m2.stack.size - (n + 1))
    rwa [hcallee] at hobeys
  exact ⟨(h1.2.trans h2.2).trans h3.2, hs.host name _ hnative fun v hv => h3.1 v (Array.mem_toList_iff.1 hv)⟩

omit hmain in
/-- Between the beginning and the end of a run, a station in order leads to stations in order. -/
theorem Leads.after (h : Leads s offers x y) (hx : x.machine.Orderly s law) (htask : x.task.Obeys law)
    (hbusy : x.task ≠ .idle) : After s law x.machine y.machine ∧ y.task.Obeys law := by
  cases h with
  | start | ran | offer | called | abort => exact absurd rfl hbusy
  | @step m m1 fuel floor hstep => exact ⟨((Keeps.step hs hcode fuel floor).leaving hx hstep).2, trivial⟩
  | stop m fuel floor => exact ⟨(Keeps.step hs hcode fuel floor m hx).after, trivial⟩
  | ask hask => exact hask.after hs hcode hx
  | callback m callee args next => exact ⟨.same hx, htask.1, htask.2.1⟩
  | @answer m m1 fuel callee v args next hanswer =>
    have hkeeps := (Keeps.checkToken.bind fun _ _ => Keeps.invoke hs hcode fuel htask.1 htask.2.1).leaving hx hanswer
    exact ⟨hkeeps.2, htask.2.2.1 v hkeeps.1⟩
  | @refuse m m1 fuel callee args f next hrefuse =>
    have houtcome := (Keeps.checkToken.bind fun _ _ => Keeps.invoke hs hcode fuel htask.1 htask.2.1) m hx
    rw [hrefuse] at houtcome
    exact ⟨houtcome.after, htask.2.2.2 f⟩
  | @heap m op v h next hop =>
    have hkeeps := (htask.1 m.heap hx.heap).1 v h hop
    exact ⟨.change { hx with heap := hkeeps.2 } rfl rfl, htask.2.1 v hkeeps.1⟩
  | @heapFault m op f h next hop =>
    exact ⟨.change { hx with heap := (htask.1 m.heap hx.heap).2 f h hop } rfl rfl, htask.2.2 f⟩
  | limits m next => exact ⟨.same hx, htask s.limits⟩
  | cancel m next => exact ⟨.change { hx with } rfl rfl, htask⟩
  | @enter m m1 f args henter =>
    have hoffer := Keeps.offer hs htask.1 htask.2
    exact ⟨((hoffer.bind fun _ _ => Keeps.callFunction hs htask.1 _ false).leaving hx henter).2, trivial⟩
  | @native m m1 name args taken hnative =>
    have hkeeps := ((Keeps.offer hs htask.1 htask.2).bind fun _ _ => Keeps.takeArguments args.length).leaving hx hnative
    exact ⟨hkeeps.2, hs.host name _ htask.1 fun v hv => hkeeps.1 v (Array.mem_toList_iff.1 hv)⟩

include hoffers

/-- A station in order leads to stations in order, with as many globals. -/
theorem Leads.orderly (h : Leads s offers x y) (hx : x.machine.Orderly s law) (htask : x.task.Obeys law) :
    y.machine.Orderly s law ∧ y.task.Obeys law ∧ y.machine.globals.size = x.machine.globals.size := by
  by_cases hidle : x.task = .idle
  · obtain ⟨task, m⟩ := x
    subst hidle
    have hreset : ∀ m', After s law (m.reset s) m' → m'.Orderly s law ∧ True ∧ m'.globals.size = m.globals.size :=
      fun _ h => ⟨h.orderly, trivial, h.spends.globals⟩
    cases h with
    | start hstart =>
      have hafter := (leaving_start hs hmain hx.reset).after
      rw [hstart] at hafter
      exact hreset _ hafter
    | ran _ fuel => exact hreset _ (after_run hs hcode hmain fuel hx.reset)
    | offer _ hoffered => exact ⟨hx, hoffers _ _ hoffered, rfl⟩
    | @called callee args _ fuel hoffered =>
      have hobeys := hoffers _ _ hoffered
      have hafter := (Keeps.invoke hs hcode fuel hobeys.1 hobeys.2 m hx).after
      exact ⟨hafter.orderly, trivial, hafter.spends.globals⟩
    | abort => exact ⟨{ hx with }, trivial, rfl⟩
  · obtain ⟨hafter, hy⟩ := h.after hs hcode hx htask hidle
    exact ⟨hafter.orderly, hy, hafter.spends.globals⟩

/-- No station breaks the law. -/
theorem Reached.orderly (h : Reached s offers m x) (hm : m.Orderly s law) :
    x.machine.Orderly s law ∧ x.machine.globals.size = m.globals.size := by
  have hall : x.machine.Orderly s law ∧ x.task.Obeys law ∧ x.machine.globals.size = m.globals.size := by
    induction h with
    | refl => exact ⟨hm, trivial, rfl⟩
    | tail _ hlast ih =>
      obtain ⟨hy, htask, hglobals⟩ := hlast.orderly hs hcode hmain hoffers ih.1 ih.2.1
      exact ⟨hy, htask, hglobals.trans ih.2.2⟩
  exact ⟨hall.1, hall.2.2⟩

end Stations

end Exec

end ScriptEngine
