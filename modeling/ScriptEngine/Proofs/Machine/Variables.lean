import ScriptEngine.Machine.Run
/-!
# Variables of a function

What reading and capturing variables do to a machine, in closed form. A local variable is at a place
of the stack, or in the cell of that place once it was captured.
-/

namespace ScriptEngine

variable {m' : Machine}

/-- The value of the variable at a place of the stack. -/
def Machine.valueAt (m : Machine) (h : Heap) (place : Nat) : Value :=
  match (m.cells[place]?).join with
  | some cell => h.cell cell
  | none => m.stack.getD place .undefined

namespace Exec

variable {α β : Type} {m : Machine}

/-! ### Executions step by step -/

theorem bind_ok {x : Exec α} {f : α → Exec β} {a : α} (h : x m = .ok a m') : (x >>= f) m = f a m' := by
  show EStateM.bind x f m = _
  rw [EStateM.bind, h]

theorem bind_error {x : Exec α} {f : α → Exec β} {e : Halt} (h : x m = .error e m') : (x >>= f) m = .error e m' := by
  show EStateM.bind x f m = _
  rw [EStateM.bind, h]

theorem discard_eq (x : Exec α) : discard x = (do let _ ← x; pure ()) := by
  funext m
  cases x m <;> rfl

theorem discard_ok {x : Exec α} {a : α} (h : x m = .ok a m') : discard x m = .ok () m' := by
  rw [discard_eq, bind_ok h]
  rfl

theorem bind_eq_ok {x : Exec α} {f : α → Exec β} {b : β} (h : (x >>= f) m = .ok b m') :
    ∃ a m1, x m = .ok a m1 ∧ f a m1 = .ok b m' := by
  cases hx : x m with
  | ok a m1 =>
    rw [bind_ok hx] at h
    exact ⟨a, m1, rfl, h⟩
  | error e m1 =>
    rw [bind_error hx] at h
    cases h

/-! ### What operations do when they succeed -/

theorem push_eq_ok {s : Setting} {v : Value} (h : push s v m = .ok () m') :
    m.stack.size < s.config.stackSize ∧ m' = { m with stack := m.stack.push v } := by
  rw [push] at h
  split at h
  · cases h
  · next hroom =>
    cases h
    exact ⟨Nat.not_le.1 hroom, rfl⟩

theorem popMany_eq_ok {n : Nat} {items : Array Value} (h : popMany n m = .ok items m') :
    n ≤ m.stack.size ∧ items = m.stack.extract (m.stack.size - n) m.stack.size ∧
      m' = { m with stack := m.stack.shrink (m.stack.size - n) } := by
  rw [popMany] at h
  split at h
  · cases h
  · next henough =>
    cases h
    exact ⟨Nat.not_lt.1 henough, rfl, rfl⟩

theorem alloc_eq_ok (h : alloc m = .ok () m') :
    m.allocs ≠ 0 ∧ m' = { m with allocs := if 0 < m.allocs then m.allocs - 1 else m.allocs } := by
  rw [alloc] at h
  split at h
  · cases h
  · next hsome =>
    refine ⟨hsome, ?_⟩
    split at h <;> cases h
    · next hpos => rw [if_pos hpos]
    · next hneg => rw [if_neg hneg]

theorem onHeap_eq_ok {op : HeapM α} {a : α} (h : onHeap op m = .ok a m') :
    ∃ heap, op m.heap = .ok a heap ∧ m' = { m with heap } := by
  rw [onHeap] at h
  dsimp only at h
  split at h
  · next b heap hop =>
    cases h
    exact ⟨heap, hop, rfl⟩
  · cases h

/-! ### Places -/

variable {f : Frame} {rest : List Frame} {index : Nat}

theorem frame_eq (hframes : m.frames = f :: rest) : frame m = .ok f m := by
  rw [frame, hframes]

theorem frame_none (hframes : m.frames = []) :
    frame m = .error (.failure { cause := .custom "no active frame" }) m := by
  rw [frame, hframes]

theorem localPlace_none (hframes : m.frames = []) :
    localPlace index m = .error (.failure { cause := .custom "no active frame" }) m :=
  bind_error (frame_none hframes)

variable (hframes : m.frames = f :: rest)
include hframes

theorem localPlace_eq (hplace : f.base + index < m.stack.size) : localPlace index m = .ok (f.base + index) m := by
  rw [localPlace, bind_ok (frame_eq hframes), bind_ok (x := get) rfl]
  simp only [if_neg (Nat.not_le.2 hplace)]
  rfl

theorem localPlace_error (hplace : m.stack.size ≤ f.base + index) :
    localPlace index m = .error (.failure { cause := .custom s!"local {index} out of range" }) m := by
  rw [localPlace, bind_ok (frame_eq hframes), bind_ok (x := get) rfl]
  simp only [if_pos hplace]
  rfl

theorem getLocal_eq (hplace : f.base + index < m.stack.size) :
    getLocal index m = .ok (m.valueAt m.heap (f.base + index)) m := by
  rw [getLocal, bind_ok (localPlace_eq hframes hplace), bind_ok (x := cellAt _) rfl, Machine.valueAt]
  cases (m.cells[f.base + index]?).join <;> rfl

theorem captured_eq {cell : Addr}
    (hcell : f.func.captured[index]? = some cell) : captured index m = .ok cell m := by
  rw [captured, bind_ok (frame_eq hframes)]
  simp only [hcell]
  rfl

theorem captured_error (hcell : f.func.captured[index]? = none) :
    captured index m = .error (.failure { cause := .custom s!"free variable {index} out of range" }) m := by
  rw [captured, bind_ok (frame_eq hframes)]
  simp only [hcell]
  rfl

end Exec

end ScriptEngine
