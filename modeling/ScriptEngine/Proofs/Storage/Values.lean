import ScriptEngine.Program.Encode
import ScriptEngine.Proofs.Storage.Loader
/-!
# Stored values

What a value needs so that it can be stored and loaded again, and that loading then gives a copy:
a value with the same content. Copies stay copies when the heap grows, so the parts of a container can be
loaded one after the other.
-/

namespace ScriptEngine

variable {x : Except ProgramError α} {f : Function} {modules : ModuleTable} {v : Value} {b : β}

variable {h h' : Heap} {bytes : List UInt8}

/-! ### Functions -/

/-- The offsets of a table of positions increase. -/
def PositionTable.Sorted (t : PositionTable) : Prop := t.entries.toList.Pairwise (·.1 < ·.1)

/-- The numbers of a function fit into four bytes, and its positions are in order. -/
structure Function.Storable (f : Function) : Prop where
  code : f.code.size < capacity 4
  locals : f.locals < capacity 4
  parameters : f.parameters < capacity 4
  positions : f.positions.entries.size < capacity 4
  entries : ∀ e ∈ f.positions.entries.toList, e.1 < capacity 4 ∧ e.2 < capacity 4
  sorted : f.positions.Sorted

theorem PositionTable.insert_of_sorted {t : PositionTable} {offset : Nat} {pos : Pos}
    (h : ∀ e ∈ t.entries.toList, e.1 < offset) :
    t.insert offset pos = { entries := t.entries.push (offset, pos) } := by
  have hback : (t.entries.back?).all (·.1 < offset) = true := by
    cases hb : t.entries.back? with
    | none => rfl
    | some e =>
      have : e ∈ t.entries.toList := Array.mem_toList_iff.2 (Array.mem_of_back? hb)
      simpa using h e this
  rw [PositionTable.insert, if_pos hback]

namespace Loader

theorem loads_positions {es : List (Nat × Pos)} (table : PositionTable) (h : Heap)
    (hfit : ∀ e ∈ es, e.1 < capacity 4 ∧ e.2 < capacity 4)
    (hsorted : (table.entries.toList ++ es).Pairwise (·.1 < ·.1)) :
    Loads (positions es.length table) (es.flatMap fun e => Bytes.u32 e.1 ++ Bytes.u32 e.2) h
      { entries := table.entries ++ es } h := by
  induction es generalizing table with
  | nil => simpa [positions] using Loads.pure table h
  | cons e rest ih =>
    obtain ⟨hoffset, hpos⟩ := hfit e (by simp)
    have hbefore : ∀ x ∈ table.entries.toList, x.1 < e.1 := fun x hx =>
      (List.pairwise_append.1 hsorted).2.2 x hx e (by simp)
    rw [List.flatMap_cons, List.append_assoc]
    refine Loads.read_bind (Reader.reads_u32 hoffset) ?_
    refine Loads.read_bind (Reader.reads_u32 hpos) ?_
    rw [PositionTable.insert_of_sorted hbefore]
    have := ih { entries := table.entries.push e } (fun x hx => hfit x (by simp [hx]))
      (by simpa using hsorted)
    simpa using this

theorem loads_function (hf : f.Storable) (hbytes : Encode.function f = .ok bytes) (h : Heap) :
    Loads function bytes h { f with id := h.functions, captured := #[] } h.newFunctionId.2 := by
  unfold Encode.function at hbytes
  split at hbytes
  · injection hbytes with hbytes
    subst hbytes
    simp only [List.append_assoc]
    refine Loads.read_bind (Reader.reads_blob _ (by simpa using hf.code)) ?_
    refine Loads.read_bind (Reader.reads_u32 hf.locals) ?_
    refine Loads.read_bind (Reader.reads_u32 hf.parameters) ?_
    refine Loads.read_bind (Reader.reads_u8 (by cases f.variadic <;> decide)) ?_
    refine Loads.read_bind (Reader.reads_u32 hf.positions) ?_
    rw [← List.append_nil (List.flatMap _ _)]
    have hpositions := loads_positions {} h hf.entries (by simpa using hf.sorted.imp id)
    have hentries : (#[] : Array (Nat × Pos)) ++ f.positions.entries.toList = f.positions.entries := by
      simp
    rw [hentries] at hpositions
    refine hpositions.bind ?_
    have hvariadic : (f.variadic.toNat != 0) = f.variadic := by cases f.variadic <;> rfl
    simp only [hvariadic, Array.toArray_toList]
    exact Loads.alloc_map Heap.newFunctionId (fun id => { f with id, captured := #[] }) h
  · simp at hbytes

end Loader

theorem Encode.captured_of_function (h : Encode.function f = .ok bytes) : f.captured = #[] := by
  unfold Encode.function at h
  split at h
  · next hempty => simpa using hempty
  · simp at h

/-! ### What can be stored -/

/-- The attribute that a module of the host has for an owner. -/
def ModuleTable.attribute? (modules : ModuleTable) (h : Heap) (owner : Option (String × String)) :
    Option Value :=
  owner.bind fun (m, key) => (modules.attributes? h m).bind (·.find? key)

/-- A native function is found again: the attribute in its place is a native function of its name,
or none at all and a builtin has the name. -/
def Native.Relinks (modules : ModuleTable) (h : Heap) (owner : Option (String × String))
    (f : Native) : Prop :=
  match modules.attribute? h owner with
  | some (.native g) => g.name = f.name
  | _ => (Builtin.ofName? f.name).isSome

/-- What a value needs to be stored and loaded, given what its parts need. The owner is the module
and the key of which the value is an attribute. -/
def Value.StorableOver (modules : ModuleTable) (h : Heap)
    (part : Option (String × String) → Value → Prop) (owner : Option (String × String)) :
    Value → Prop
  | .string s => (Bytes.ofString s).length < capacity 4
  | .bytes a => a < h.buffers.size ∧ (h.buffer a).size < capacity 4
  | .array a | .frozenArray a =>
    a < h.arrays.size ∧ (h.array a).size < capacity 4 ∧ ∀ x ∈ (h.array a).toList, part none x
  | .map a =>
    a < h.maps.size ∧ (h.map a).size < capacity 4 ∧
      ∀ e ∈ (h.map a).entries, (Bytes.ofString e.1).length < capacity 4 ∧ part none e.2
  | .frozenMap a =>
    a < h.maps.size ∧ (h.map a).size < capacity 4 ∧
      ∀ e ∈ (h.map a).entries, (Bytes.ofString e.1).length < capacity 4 ∧
        part ((Value.moduleName? h (.frozenMap a)).map (·, e.1)) e.2
  | .time t => Instant.ofUnix? t.seconds t.nanos = some t
  | .error v => part none v
  | .native f => (Bytes.ofString f.name).length < capacity 4 ∧ f.Relinks modules h owner
  | .function f => f.Storable
  | .undefined | .int _ | .float _ | .char _ | .bool _ | .iterator _ _ => True

/-- A value is a finite tree with at most `depth` levels below its root, its containers exist in the
heap, its counts and sizes fit into four bytes, and its native functions are found again. -/
def Value.Storable (modules : ModuleTable) (h : Heap) :
    (depth : Nat) → Option (String × String) → Value → Prop
  | 0 => Value.StorableOver modules h fun _ _ => False
  | depth + 1 => Value.StorableOver modules h (Value.Storable modules h depth)

/-- The attributes of the modules exist in the heap. -/
def ModuleTable.Within (modules : ModuleTable) (h : Heap) : Prop :=
  ∀ name a, modules.find? name = some (.native (.frozenMap a)) → a < h.maps.size

theorem ModuleTable.Within.attributes?_eq
    (hm : modules.Within h) (e : h.Extends h') (name : String) :
    modules.attributes? h' name = modules.attributes? h name := by
  unfold ModuleTable.attributes?
  split
  · next a ha => rw [e.map_eq (hm name a ha)]
  · rfl

theorem Native.Relinks.of_extends (hm : modules.Within h)
    (e : h.Extends h') {owner : Option (String × String)} {f : Native}
    (hf : f.Relinks modules h owner) : f.Relinks modules h' owner := by
  unfold Native.Relinks ModuleTable.attribute? at *
  simpa only [hm.attributes?_eq e] using hf

/-! ### Copies -/

/-- The code of a value that is a function. -/
def Value.code? : Value → Option (Array UInt8)
  | .function f => some f.code
  | _ => none

/-- The text of a value that is one. -/
def Value.text? : Value → Option String
  | .string s => some s
  | _ => none

/-- The second value has the content of the first one, in the heap and in every later one, for all fuel from
some amount on. -/
def Copies (h : Heap) (fuel : Nat) (v w : Value) : Prop :=
  ∀ h', h.Extends h' → ∀ n, fuel ≤ n → Program.sameContent h' n v w = true

theorem Copies.of_extends {fuel : Nat} {w : Value} (hc : Copies h fuel v w) (e : h.Extends h') :
    Copies h' fuel v w := fun h'' e' => hc h'' (e.trans e')

/-- Bytes are loaded, in a heap that may grow, as a copy of a value. -/
def Restored (modules : ModuleTable) (room : Nat) (h : Heap) (fuel : Nat) (owner : Option (String × String)) (v : Value)
    (bytes : List UInt8) : Prop :=
  ∃ w h', (Loader.value modules room owner).Loads bytes h w h' ∧ h.Extends h' ∧ Copies h' fuel v w

/-- What a value was stored as is loaded, after more room, as a copy of it. -/
def Restores (modules : ModuleTable) (room : Nat) (h0 : Heap) (fuel : Nat)
    (owner : Option (String × String)) (v : Value) : Prop :=
  ∀ bytes, Encode.value h0 fuel v = .ok bytes → ∀ h, h0.Extends h → Restored modules room h fuel owner v bytes

theorem Encode.exists_of_bind_eq_ok {f : α → Except ProgramError β}
    (h : x >>= f = .ok b) : ∃ a, x = .ok a ∧ f a = .ok b := by
  cases x with
  | error fault => cases h
  | ok a => exact ⟨a, rfl, h⟩

theorem Encode.exists_of_map_eq_ok {f : α → β}
    (h : f <$> x = .ok b) : ∃ a, x = .ok a ∧ f a = b := by
  cases x with
  | error fault => cases h
  | ok a => exact ⟨a, rfl, Except.ok.inj h⟩

/-! ### Atoms -/

/-- A value without parts is stored as such, whatever the fuel. -/
theorem Encode.value_of_atom
    (hv : Encode.atom h v = .ok bytes) (fuel : Nat) : Encode.value h fuel v = .ok bytes := by
  cases v <;> cases fuel <;> first | (cases hv; done) | (simp [Value.unwrap, hv])

theorem Loader.Loads.tagged {t : ValueTag} {k : Nat → Loader α} {a : α} (hk : (k t.code).Loads bytes h a h') :
    (Loader.read Reader.u8 >>= k).Loads (Encode.tag t ++ bytes) h a h' :=
  Loader.Loads.read_bind (Reader.reads_u8 (by cases t <;> decide)) hk

theorem Encode.value_error (h : Heap) (fuel : Nat) (v : Value) :
    Encode.value h fuel (.error v) = (Encode.tag .error ++ ·) <$> Encode.value h fuel v := by
  rw [Encode.value, Encode.value]
  simp only [Value.unwrap, List.replicate_succ, List.flatten_cons, List.append_assoc]
  split
  case h_4 => split <;> simp [Functor.map_map, bind_pure_comp]
  all_goals simp [Functor.map_map, bind_pure_comp]

theorem Program.sameContent_error (h : Heap) (fuel : Nat) (v w : Value) :
    Program.sameContent h fuel (.error v) (.error w) = Program.sameContent h fuel v w := by
  simp [Value.unwrap]

end ScriptEngine
