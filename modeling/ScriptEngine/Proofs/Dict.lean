import ScriptEngine.Dict
/-!
# Look-up in dictionaries
-/

namespace ScriptEngine

variable {d : Dict α} {entries : List (String × α)} {v : α}

variable {key : String}

namespace Entries

variable {α : Type}

theorem mem_of_find? (h : find? key entries = some v) : (key, v) ∈ entries := by
  induction entries with
  | nil => cases h
  | cons e rest ih =>
    rw [find?] at h
    split at h
    · next hkey =>
      obtain rfl := Option.some.inj h
      simp [← hkey]
    · exact List.mem_cons_of_mem _ (ih h)

theorem find?_of_mem (hnodup : (entries.map Prod.fst).Nodup)
    (h : (key, v) ∈ entries) : find? key entries = some v := by
  induction entries with
  | nil => cases h
  | cons e rest ih =>
    obtain ⟨hfirst, hrest⟩ := List.nodup_cons.1 hnodup
    rw [find?]
    rcases List.mem_cons.1 h with rfl | hmem
    · rw [if_pos rfl]
    · have hne : e.1 ≠ key := fun heq => hfirst (heq ▸ List.mem_map_of_mem hmem)
      rw [if_neg hne]
      exact ih hrest hmem

theorem insert_of_notMem {entries : List (String × α)} (h : key ∉ entries.map Prod.fst) (v : α) :
    insert key v entries = entries ++ [(key, v)] := by
  induction entries with
  | nil => rfl
  | cons e rest ih =>
    obtain ⟨hne, hrest⟩ := not_or.1 (mt List.mem_cons.2 h)
    rw [insert, if_neg (Ne.symm hne), ih hrest, List.cons_append]

theorem find?_insert (key k : String) (value : α) (entries : List (String × α)) :
    find? k (insert key value entries) = if key = k then some value else find? k entries := by
  induction entries with
  | nil => rfl
  | cons e rest ih =>
    rw [insert]
    split
    · next hk' =>
      subst hk'
      simp only [find?]
      split <;> rfl
    · next hne =>
      simp only [find?, ih]
      split
      · next hk => rw [if_neg fun heq => hne (hk.trans heq.symm)]
      · rfl

end Entries

namespace Dict

variable {α : Type}

theorem mem_keys_of_find? (h : d.find? key = some v) : key ∈ d.keys :=
  List.mem_map_of_mem (Entries.mem_of_find? h)

theorem find?_eq_some_iff : d.find? key = some v ↔ (key, v) ∈ d.entries :=
  ⟨Entries.mem_of_find?, Entries.find?_of_mem d.nodup⟩

theorem mem_keys_iff : key ∈ d.keys ↔ ∃ v, d.find? key = some v := by
  refine ⟨fun h => ?_, fun ⟨_, hv⟩ => mem_keys_of_find? hv⟩
  obtain ⟨e, he, rfl⟩ := List.mem_map.1 h
  exact ⟨e.2, find?_eq_some_iff.2 he⟩

theorem find?_insert (d : Dict α) (key k : String) (value : α) :
    (d.insert key value).find? k = if key = k then some value else d.find? k :=
  Entries.find?_insert key k value d.entries

end Dict

end ScriptEngine
