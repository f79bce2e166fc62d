/-!
# Ordered dictionaries

A dictionary keeps its entries in the order in which keys were first inserted. A repeated key
overwrites the value in place, and no key occurs twice.
-/

namespace ScriptEngine

namespace Entries

def find? (key : String) : List (String × α) → Option α
  | [] => none
  | (k, v) :: rest => if k = key then some v else find? key rest

def insert (key : String) (value : α) : List (String × α) → List (String × α)
  | [] => [(key, value)]
  | (k, v) :: rest => if k = key then (k, value) :: rest else (k, v) :: insert key value rest

def erase (key : String) : List (String × α) → List (String × α)
  | [] => []
  | (k, v) :: rest => if k = key then rest else (k, v) :: erase key rest

theorem mem_keys_insert {key k : String} {value : α} {entries : List (String × α)}
    (h : k ∈ (insert key value entries).map Prod.fst) : k = key ∨ k ∈ entries.map Prod.fst := by
  induction entries with
  | nil => simpa [insert] using h
  | cons e rest ih =>
    unfold insert at h
    split at h
    · exact Or.inr h
    · rcases List.mem_cons.1 h with h | h
      · exact Or.inr (by simp [h])
      · exact (ih h).imp id (List.mem_cons_of_mem _)

theorem mem_keys_erase {key k : String} {entries : List (String × α)}
    (h : k ∈ (erase key entries).map Prod.fst) : k ∈ entries.map Prod.fst := by
  induction entries with
  | nil => simp [erase] at h
  | cons e rest ih =>
    unfold erase at h
    split at h
    · exact List.mem_cons_of_mem _ h
    · rcases List.mem_cons.1 h with h | h
      · exact List.mem_cons.2 (.inl h)
      · exact List.mem_cons_of_mem _ (ih h)

theorem nodup_insert (key : String) (value : α) {entries : List (String × α)}
    (h : (entries.map Prod.fst).Nodup) : ((insert key value entries).map Prod.fst).Nodup := by
  induction entries with
  | nil => simp [insert]
  | cons e rest ih =>
    obtain ⟨hk, hrest⟩ := List.nodup_cons.1 h
    unfold insert
    split
    · exact List.nodup_cons.2 ⟨hk, hrest⟩
    · next hne =>
      refine List.nodup_cons.2 ⟨fun hmem => ?_, ih hrest⟩
      rcases mem_keys_insert hmem with h | h
      · exact hne h
      · exact hk h

theorem nodup_erase (key : String) {entries : List (String × α)}
    (h : (entries.map Prod.fst).Nodup) : ((erase key entries).map Prod.fst).Nodup := by
  induction entries with
  | nil => simp [erase]
  | cons e rest ih =>
    obtain ⟨hk, hrest⟩ := List.nodup_cons.1 h
    unfold erase
    split
    · exact hrest
    · exact List.nodup_cons.2 ⟨fun hmem => hk (mem_keys_erase hmem), ih hrest⟩

end Entries

/-- A dictionary from texts, in insertion order. -/
structure Dict (α : Type) where
  entries : List (String × α) := []
  nodup : (entries.map Prod.fst).Nodup := by exact List.nodup_nil

namespace Dict

instance : Inhabited (Dict α) := ⟨{}⟩

def find? (d : Dict α) (key : String) : Option α := Entries.find? key d.entries

def contains (d : Dict α) (key : String) : Bool := (d.find? key).isSome

/-- Overwrites the value of a key in place, or adds the key at the end. -/
def insert (d : Dict α) (key : String) (value : α) : Dict α :=
  ⟨Entries.insert key value d.entries, Entries.nodup_insert key value d.nodup⟩

/-- Removes a key; the others stay in order. -/
def erase (d : Dict α) (key : String) : Dict α :=
  ⟨Entries.erase key d.entries, Entries.nodup_erase key d.nodup⟩

/-- The dictionary built by inserting entries in order. -/
def ofList (entries : List (String × α)) : Dict α :=
  entries.foldl (fun d e => d.insert e.1 e.2) {}

def keys (d : Dict α) : List String := d.entries.map Prod.fst

def values (d : Dict α) : List α := d.entries.map Prod.snd

def size (d : Dict α) : Nat := d.entries.length

def isEmpty (d : Dict α) : Bool := d.entries.isEmpty

/-- The same keys with values computed from the old ones. -/
def mapValues (f : α → β) (d : Dict α) : Dict β :=
  ⟨d.entries.map fun e => (e.1, f e.2), by simpa [Function.comp_def] using d.nodup⟩

end Dict

end ScriptEngine
