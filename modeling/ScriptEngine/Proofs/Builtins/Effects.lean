import ScriptEngine.Proofs.Value.Duplicates
/-!
# What builtin functions change

`delete` and `splice` change their first argument, if they succeed. No other builtin function changes
anything that exists (`Builtin.confined_call`).
-/

namespace ScriptEngine

variable {changed : Value → Prop}

namespace Builtin

theorem confined_deleted {args : List Value} (harg : changed (argument args 0)) :
    (deleted args).Confined changed := by
  unfold deleted
  split
  · next a key ha hkey =>
    rw [ha] at harg
    exact ((HeapM.Succeeds.modify fun h => .modifyMap harg h _).bind fun _ => .pure _).confined
  · exact .throw _
  · exact .throw _

theorem confined_spliced {limits : Limits} {args : List Value} (harg : changed (argument args 0)) :
    (spliced limits args).Confined changed := by
  unfold spliced
  split
  · next a ha =>
    rw [ha] at harg
    refine .get fun h => .after (.ofExcept _) fun r => .after (.ofExcept _) fun _ => ?_
    exact ((HeapM.Succeeds.modify fun h => .setArray harg h _).bind fun _ => .array _).confined
  · exact .throw _

variable (limits : Limits)

theorem confined_stringOf (args : List Value) : (stringOf limits args).Confined changed := by
  unfold stringOf
  split
  · exact (HeapM.Leaves.pure _).confined
  · exact (HeapM.Leaves.pure _).confined
  · exact .after (.read _) fun _ => (HeapM.Leaves.pure _).confined

theorem confined_bytesOf (args : List Value) : (bytesOf limits args).Confined changed := by
  unfold bytesOf
  split
  · exact (HeapM.Leaves.pure _).confined
  · split
    · exact (HeapM.Leaves.pure _).confined
    · exact .after (.ofExcept _) fun _ => (HeapM.Succeeds.bytes _).confined
  · exact .after (.ofExcept _) fun _ => (HeapM.Succeeds.bytes _).confined
  · exact (HeapM.Leaves.pure _).confined

theorem confined_ranged (args : List Value) : (ranged limits args).Confined changed := by
  refine .after (.ofExcept _) fun start => .after (.ofExcept _) fun stop => .after (.ofExcept _) fun step => ?_
  split
  · exact .throw _
  · exact .after (.ofExcept _) fun _ => (HeapM.Succeeds.array _).confined

/-- A builtin function that fails changes nothing; one that succeeds changes nothing, or its first argument. -/
theorem confined_call (b : Builtin) (args : List Value) :
    (b.call limits args).Confined fun v => (b = .splice ∨ b = .delete) ∧ v = argument args 0 := by
  have hchecked : ∀ {changed : Value → Prop} {r : Except Fault Unit} {x : HeapM Value}, x.Confined changed →
      HeapM.Confined changed (HeapM.ofExcept r >>= fun _ => x) := fun hx => .after (.ofExcept _) fun _ => hx
  cases b with
  | copy =>
    refine hchecked (HeapM.Succeeds.confined fun h => ?_)
    obtain ⟨y, h', ρ, hcopy, -, hf⟩ := (argument args 0).copy_faithful h
    exact ⟨y, h', hcopy, hf.kept.mono fun _ _ => False.elim⟩
  | append =>
    refine hchecked ?_
    unfold appended
    split
    · exact .throw _
    · exact .get fun h => .after (.ofExcept _) fun _ => (HeapM.Succeeds.array _).confined
  | delete => exact hchecked (confined_deleted ⟨.inr rfl, rfl⟩)
  | splice => exact hchecked (confined_spliced ⟨.inl rfl, rfl⟩)
  | string => exact hchecked (confined_stringOf limits args)
  | bytes => exact hchecked (confined_bytesOf limits args)
  | format =>
    refine hchecked ?_
    unfold formatted
    split
    · exact (HeapM.Leaves.pure _).confined
    · exact .after (.read _) fun _ => (HeapM.Leaves.pure _).confined
    · exact .throw _
  | range => exact hchecked (confined_ranged limits args)
  | len => exact hchecked (.after (.read _) fun _ => (HeapM.Leaves.pure _).confined)
  | bool => exact hchecked (.get fun _ => (HeapM.Leaves.pure _).confined)
  | _ => exact hchecked (HeapM.Leaves.pure _).confined

end Builtin

/-- Operations that fail change nothing. Operators, indexing, slices and iteration change nothing that exists
when they succeed either, builtin functions nothing but the first argument of `splice` and `delete`, and an assignment only
the one entry that it sets. -/
theorem operations_change_target_only (limits : Limits) :
    (∀ b args, (Builtin.call limits b args).Confined fun v =>
      (b = .splice ∨ b = .delete) ∧ v = Builtin.argument args 0) ∧
    (∀ op v w, (Value.binary limits op v w).Confined fun _ => False) ∧
    (∀ v, (HeapM.ofExcept (Value.negate v)).Confined fun _ => False) ∧
    (∀ v, (HeapM.ofExcept (Value.complement v)).Confined fun _ => False) ∧
    (∀ v index, (HeapM.read fun h => Value.get h v index).Confined fun _ => False) ∧
    (∀ v low high, (Value.slice v low high).Confined fun _ => False) ∧
    (∀ v, (Value.iterate v).Confined fun _ => False) ∧
    ∀ target v selectors m,
      (∀ u m', Exec.assignPart target v selectors m = .ok u m' → ∃ first rest holder h',
        selectors = first :: rest ∧ rest.reverse.foldlM (fun x key => x.get m.heap key) target = .ok holder ∧
        m' = { m with heap := h' } ∧ m.heap.KeepsBut (· = holder) h' ∧ m.heap.EntrySet h' first v holder) ∧
      ∀ c m', Exec.assignPart target v selectors m = .error c m' → m' = m :=
  ⟨Builtin.confined_call limits, Value.confined_binary limits, fun _ => (HeapM.Leaves.ofExcept _).confined,
    fun _ => (HeapM.Leaves.ofExcept _).confined, fun _ _ => (HeapM.Leaves.read _).confined, Value.confined_slice,
    Value.confined_iterate, Exec.assignPart_sets_entry⟩

end ScriptEngine
