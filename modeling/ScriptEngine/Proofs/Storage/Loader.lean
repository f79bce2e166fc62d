import ScriptEngine.Program.Decode
import ScriptEngine.Proofs.Storage.Bytes
/-!
# Loading in a heap that grows

Loading a value allocates its containers. `Heap.Extends` says that what existed before stays as it
was; `Loader.Loads` says what a loader does with the bytes ahead of it and with the heap, and is
closed under sequencing.
-/

namespace ScriptEngine

variable {a : Addr} {h h' : Heap} {bytes : List UInt8}

/-! ### Growing heaps -/

/-- What exists in the first heap is the same in the second one, where more may exist. -/
structure Heap.Extends (h h' : Heap) : Prop where
  buffers : h.buffers.toList <+: h'.buffers.toList
  arrays : h.arrays.toList <+: h'.arrays.toList
  maps : h.maps.toList <+: h'.maps.toList

namespace Heap.Extends

theorem refl (h : Heap) : h.Extends h := ⟨List.prefix_rfl, List.prefix_rfl, List.prefix_rfl⟩

theorem trans {h1 h2 h3 : Heap} (e : h1.Extends h2) (e' : h2.Extends h3) : h1.Extends h3 :=
  ⟨e.buffers.trans e'.buffers, e.arrays.trans e'.arrays, e.maps.trans e'.maps⟩

theorem getD_of_prefix {xs ys : Array α} (hp : xs.toList <+: ys.toList) {i : Nat} (hi : i < xs.size)
    (d : α) : ys.getD i d = xs.getD i d := by
  obtain ⟨more, hmore⟩ := hp
  have hys : ys = xs ++ more.toArray := by
    apply Array.toList_inj.1
    rw [← hmore, Array.toList_append]
  rw [Array.getD_eq_getD_getElem?, Array.getD_eq_getD_getElem?, hys, Array.getElem?_append_left hi]

section

variable (e : h.Extends h')
include e

theorem buffer_eq (ha : a < h.buffers.size) : h'.buffer a = h.buffer a := getD_of_prefix e.buffers ha _

theorem array_eq (ha : a < h.arrays.size) : h'.array a = h.array a := getD_of_prefix e.arrays ha _

theorem map_eq (ha : a < h.maps.size) : h'.map a = h.map a := getD_of_prefix e.maps ha _

theorem depth_le : h.depth ≤ h'.depth := by
  have harrays := e.arrays.length_le
  have hmaps := e.maps.length_le
  simp only [Array.length_toList] at harrays hmaps
  unfold Heap.depth
  omega

end

variable (h : Heap)

theorem newBuffer (content : Array UInt8) : h.Extends (h.newBuffer content).2 :=
  ⟨by simp [Heap.newBuffer], List.prefix_rfl, List.prefix_rfl⟩

theorem newArray (content : Array Value) : h.Extends (h.newArray content).2 :=
  ⟨List.prefix_rfl, by simp [Heap.newArray], List.prefix_rfl⟩

theorem newMap (content : Dict Value) : h.Extends (h.newMap content).2 :=
  ⟨List.prefix_rfl, List.prefix_rfl, by simp [Heap.newMap]⟩

theorem newFunctionId : h.Extends h.newFunctionId.2 :=
  ⟨List.prefix_rfl, List.prefix_rfl, List.prefix_rfl⟩

end Heap.Extends

@[simp]
theorem Heap.buffer_newBuffer (h : Heap) (content : Array UInt8) :
    (h.newBuffer content).2.buffer (h.newBuffer content).1 = content := by
  simp [Heap.newBuffer, Heap.buffer]

@[simp]
theorem Heap.map_newMap (h : Heap) (content : Dict Value) :
    (h.newMap content).2.map (h.newMap content).1 = content := by
  simp [Heap.newMap, Heap.map]

/-- A new content is the same in every later heap. -/
theorem Heap.Extends.buffer_new {content : Array UInt8}
    (e : (h.newBuffer content).2.Extends h') : h'.buffer (h.newBuffer content).1 = content := by
  rw [e.buffer_eq (by simp [Heap.newBuffer]), Heap.buffer_newBuffer]

theorem Heap.Extends.array_new {content : Array Value}
    (e : (h.newArray content).2.Extends h') : h'.array (h.newArray content).1 = content := by
  rw [e.array_eq (by simp [Heap.newArray]), Heap.array_newArray]

theorem Heap.Extends.map_new {content : Dict Value}
    (e : (h.newMap content).2.Extends h') : h'.map (h.newMap content).1 = content := by
  rw [e.map_eq (by simp [Heap.newMap]), Heap.map_newMap]

/-! ### Loaders -/

namespace Loader

attribute [simp] value

/-- With `bytes` ahead, the loader gives `a`, moves behind them and takes heap `h` to heap `h'`. -/
def Loads (l : Loader α) (bytes : List UInt8) (h : Heap) (a : α) (h' : Heap) : Prop :=
  ∀ (c : Cursor) (rest : List UInt8), c.ahead = bytes ++ rest →
    l c h = .ok (a, c.skip bytes.length) h'

theorem Loads.pure (a : α) (h : Heap) : Loads (pure a) [] h a h := fun _ _ _ => rfl

theorem Loads.bind {l : Loader α} {f : α → Loader β} {more : List UInt8} {h'' : Heap}
    {a : α} {b : β} (hl : l.Loads bytes h a h') (hf : (f a).Loads more h' b h'') :
    (l >>= f).Loads (bytes ++ more) h b h'' := by
  intro c rest hc
  rw [List.append_assoc] at hc
  have hnext := hf _ rest (Cursor.ahead_skip hc)
  show EStateM.bind (l c) (fun p => f p.1 p.2) h = _
  rw [EStateM.bind, hl c _ hc]
  show f a _ h' = _
  rw [hnext, Cursor.skip_skip, List.length_append]

/-- A loader whose result is only passed on. -/
theorem Loads.map {l : Loader α} {f : α → β} {a : α}
    (hl : l.Loads bytes h a h') : Loads (do let x ← l; return f x) bytes h (f a) h' := by
  rw [← List.append_nil bytes]
  exact hl.bind (Loads.pure (f a) h')

theorem loads_read {r : Reader α} {a : α} (hr : r.Reads bytes a) (h : Heap) : Loads (read r) bytes h a h := by
  intro c rest hc
  rw [read, hr c rest hc]
  rfl

theorem loads_alloc (f : Heap → α × Heap) (h : Heap) : Loads (alloc f) [] h (f h).1 (f h).2 := by
  intro c rest hc
  rfl

/-- Reads first and goes on with the rest of the bytes. -/
theorem Loads.read_bind {r : Reader α} {f : α → Loader β} {more : List UInt8}
    {a : α} {b : β} (hr : r.Reads bytes a) (hf : (f a).Loads more h b h') :
    (read r >>= f).Loads (bytes ++ more) h b h' := (loads_read hr h).bind hf

/-- Allocates last. -/
theorem Loads.alloc_map (f : Heap → α × Heap) (g : α → β) (h : Heap) :
    Loads (do return g (← alloc f)) [] h (g (f h).1) (f h).2 := (loads_alloc f h).map

/-- Loads a content and allocates it. -/
theorem Loads.bind_alloc {l : Loader α} {a : α} (hl : l.Loads bytes h a h') (f : α → Heap → β × Heap) (g : β → γ) :
    Loads (do let x ← l; return g (← alloc (f x))) bytes h (g (f a h').1) (f a h').2 := by
  rw [← List.append_nil bytes]
  exact hl.bind (Loads.alloc_map (f a) g h')

end Loader

end ScriptEngine
