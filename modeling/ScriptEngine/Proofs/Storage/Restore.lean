import ScriptEngine.Proofs.Dict
import ScriptEngine.Proofs.Storage.Forms
/-!
# Restoring values

Loading what a value was stored as gives a copy of it. Atoms come first, then containers, whose items are
restored one after the other in a heap that grows, and last the induction over the levels of a tree.
-/

namespace ScriptEngine

open Loader

variable {K : Addr → Value} {t : Instant} {depth : Nat} {f : Native} {part : Option (String × String) → Value → Prop}

variable {a : Addr} {bytes : List UInt8} {v : Value}

section

variable {modules : ModuleTable} {room fuel : Nat} {h0 h : Heap} {owner : Option (String × String)}

/-! ### Atoms -/

/-- A value that does not live in the heap is loaded as itself. -/
theorem Restored.same (hsame : ∀ h n, Same h n v v)
    (hload : (value modules room owner).Loads bytes h v h) : Restored modules room h fuel owner v bytes :=
  ⟨v, h, hload, .refl h, fun h' _ n _ => (hsame h' n).content⟩

theorem restored_char (c : Char) :
    Restored modules (room + 1) h fuel owner (.char c) (Encode.tag .char ++ Bytes.u32 c.toNat) := by
  refine .same (fun _ _ => .char c) ?_
  rw [← List.append_nil (Bytes.u32 _)]
  refine .tagged (.read_bind (Reader.reads_u32 c.val.toNat_lt) ?_)
  rw [dif_pos (show c.toNat.isValidChar from c.valid)]
  exact .pure _ h

theorem restored_bool (b : Bool) :
    Restored modules (room + 1) h fuel owner (.bool b) (Encode.tag .bool ++ Bytes.u8 b.toNat) := by
  have hfit : b.toNat < capacity 1 := by cases b <;> decide
  have hload := (loads_read (Reader.reads_u8 hfit) h).map (f := fun n => Value.bool (n != 0))
  rw [show (b.toNat != 0) = b by cases b <;> rfl] at hload
  refine .same (fun _ _ => .bool b) ?_
  exact .tagged hload

theorem Instant.range_of_ofUnix? (ht : Instant.ofUnix? t.seconds t.nanos = some t) :
    t.seconds < 2 ^ 63 ∧ -2 ^ 63 ≤ t.seconds ∧ t.nanos < capacity 4 := by
  unfold Instant.ofUnix? Instant.inCalendar at ht
  split at ht
  · next hcond =>
    simp only [Bool.and_eq_true, decide_eq_true_eq] at hcond
    simp only [Instant.first, Instant.last] at hcond
    simp only [capacity]
    omega
  · simp at ht

theorem restored_time (ht : Instant.ofUnix? t.seconds t.nanos = some t) :
    Restored modules (room + 1) h fuel owner (.time t)
      (Encode.tag .time ++ (Bytes.i64 (Int64.ofInt t.seconds) ++ Bytes.u32 t.nanos)) := by
  have hrange := Instant.range_of_ofUnix? ht
  refine .same (fun _ _ => .time t) ?_
  refine .tagged (.read_bind (Reader.reads_i64 _) (.read_bind (Reader.reads_u32 hrange.2.2) ?_))
  rw [Int64.toInt_ofInt_of_le (by simpa using hrange.2.1) (by simpa using hrange.1), ht]
  exact .pure _ h

theorem restored_bytes (e : h0.Extends h) (ha : a < h0.buffers.size) (hfit : (h0.buffer a).size < capacity 4) :
    Restored modules (room + 1) h fuel owner (.bytes a) (Encode.tag .bytes ++ Bytes.blob (h0.buffer a).toList) := by
  refine ⟨.bytes (h.newBuffer (h0.buffer a)).1, (h.newBuffer (h0.buffer a)).2, ?_, .newBuffer h _, fun h' e' n _ => ?_⟩
  · have hblob := loads_read (Reader.reads_blob (h0.buffer a).toList (by simpa using hfit)) h
    exact .tagged (hblob.bind_alloc (fun content h => h.newBuffer content) Value.bytes)
  · have hold := ((e.trans (.newBuffer h _)).trans e').buffer_eq ha
    exact (Same.bytes (hold.trans e'.buffer_new.symm)).content

theorem link_apply (modules : ModuleTable) (name : String) (owner : Option (String × String))
    (h : Heap) (c : Cursor) : link modules name owner c h =
      (match modules.attribute? h owner with
      | some (.native f) => return .native f
      | _ => match Builtin.ofName? name with
        | some b => return .native (.builtin b)
        | none => throw (.unknownNative (match owner with
          | some (m, key) => m ++ "." ++ key
          | none => name)) : Loader Value) c h := rfl

/-- A native function that is found again is linked to one of its name. -/
theorem loads_link {h : Heap} (hf : f.Relinks modules h owner) :
    ∃ g : Native, g.name = f.name ∧ (link modules f.name owner).Loads [] h (.native g) h := by
  have hlink := link_apply modules f.name owner h
  unfold Native.Relinks at hf
  split at hf
  · next g hg =>
    refine ⟨g, hf, fun c rest hc => ?_⟩
    rw [hlink, hg]
    rfl
  · next hg =>
    obtain ⟨b, hb⟩ := Option.isSome_iff_exists.1 hf
    have hname : b.name = f.name := by simpa using Array.find?_some hb
    refine ⟨.builtin b, hname, fun c rest hc => ?_⟩
    rw [hlink]
    simp only [hb]
    rfl

theorem restored_native (hfit : (Bytes.ofString f.name).length < capacity 4) (hf : f.Relinks modules h owner) :
    Restored modules (room + 1) h fuel owner (.native f) (Encode.tag .native ++ Bytes.text f.name) := by
  obtain ⟨g, hname, hlink⟩ := loads_link hf
  refine ⟨.native g, h, ?_, .refl h, fun h' _ n _ => (Same.native hname.symm).content⟩
  rw [← List.append_nil (Bytes.text _)]
  exact .tagged (.read_bind (Reader.reads_text hfit) hlink)

theorem restored_function {f : Function} (hf : f.Storable) (hbytes : Encode.function f = .ok bytes) :
    Restored modules (room + 1) h fuel owner (.function f) (Encode.tag .function ++ bytes) := by
  refine ⟨.function { f with id := h.functions, captured := #[] }, h.newFunctionId.2, ?_, .newFunctionId h,
    fun h' _ n _ => (Same.function ?_).content⟩
  · exact .tagged (loads_function hf hbytes h).map
  · simp [Program.sameFunction, Encode.captured_of_function hbytes]

/-! ### Items -/

/-- Items are loaded one after the other, each in the heap that the ones before it left. -/
theorem loads_items {vs : List Value} (hvs : ∀ v ∈ vs, Restores modules room h0 fuel none v)
    (hbytes : Encode.each (Encode.value h0 fuel) vs = .ok bytes) (e : h0.Extends h) (done : Array Value) :
    ∃ (ws : List Value) (h' : Heap), (repeated (value modules room none) vs.length done).Loads bytes h (done ++ ws) h' ∧ h.Extends h' ∧
      List.Forall₂ (Copies h' fuel) vs ws := by
  induction vs generalizing bytes h done with
  | nil =>
    cases hbytes
    refine ⟨[], h, ?_, .refl h, .nil⟩
    simpa [repeated] using Loads.pure done h
  | cons v rest ih =>
    obtain ⟨first, more, hfirst, hmore, rfl⟩ := Encode.each_cons_eq_ok.1 hbytes
    obtain ⟨w, h1, hload, e1, hcopy⟩ := hvs v (by simp) first hfirst h e
    obtain ⟨ws, h2, hloads, e2, hcopies⟩ := ih (fun x hx => hvs x (by simp [hx])) hmore (e.trans e1) (done.push w)
    refine ⟨w :: ws, h2, ?_, e1.trans e2, .cons (hcopy.of_extends e2) hcopies⟩
    exact hload.bind (by simpa using hloads)

/-- Entries are loaded one after the other; their keys are new, so they keep their order. -/
theorem loads_entries (owner : String → Option (String × String)) {es : List (String × Value)}
    (hes : ∀ e ∈ es, (Bytes.ofString e.1).length < capacity 4 ∧ Restores modules room h0 fuel (owner e.1) e.2)
    (hbytes : Encode.each (fun e => do return Bytes.text e.1 ++ (← Encode.value h0 fuel e.2)) es = .ok bytes)
    (e : h0.Extends h) (done : Dict Value) (hkeys : (done.entries.map Prod.fst ++ es.map Prod.fst).Nodup) :
    ∃ (ws : List (String × Value)) (h' : Heap) (d : Dict Value), d.entries = done.entries ++ ws ∧
      (entries (fun key => value modules room (owner key)) es.length done).Loads bytes h d h' ∧ h.Extends h' ∧
      List.Forall₂ (fun e w => e.1 = w.1 ∧ Copies h' fuel e.2 w.2) es ws := by
  induction es generalizing bytes h done with
  | nil =>
    cases hbytes
    exact ⟨[], h, done, by simp, Loads.pure done h, .refl h, .nil⟩
  | cons entry rest ih =>
    obtain ⟨key, v⟩ := entry
    obtain ⟨first, more, hfirst, hmore, rfl⟩ := Encode.each_cons_eq_ok.1 hbytes
    obtain ⟨inner, hinner, hfirst⟩ := Encode.exists_of_bind_eq_ok hfirst
    obtain rfl := Except.ok.inj hfirst
    obtain ⟨hfit, hrestores⟩ := hes (key, v) (by simp)
    obtain ⟨w, h1, hload, e1, hcopy⟩ := hrestores inner hinner h e
    have hnew : key ∉ done.entries.map Prod.fst := fun hmem =>
      (List.nodup_append.1 hkeys).2.2 key hmem key (by simp) rfl
    have hinsert : (done.insert key w).entries = done.entries ++ [(key, w)] := Entries.insert_of_notMem hnew w
    obtain ⟨ws, h2, d, hentries, hloads, e2, hcopies⟩ := ih (fun x hx => hes x (by simp [hx])) hmore (e.trans e1)
      (done.insert key w) (by rw [hinsert]; simpa using hkeys)
    refine ⟨(key, w) :: ws, h2, d, by simp [hentries, hinsert], ?_, e1.trans e2,
      .cons ⟨rfl, hcopy.of_extends e2⟩ hcopies⟩
    rw [List.append_assoc]
    exact .read_bind (Reader.reads_text hfit) (hload.bind hloads)

/-! ### Containers -/

/-- An array, plain or frozen, is restored if its items are. -/
theorem restored_array {t : ValueTag}
    (hsame : ∀ {h n b c}, List.Forall₂ (Program.sameContent h n · · = true) (h.array b).toList (h.array c).toList →
      Same h (n + 1) (K b) (K c)) (hload : ∀ {bytes : List UInt8} {h h' : Heap} {content : Array Value},
      (read Reader.u32 >>= fun n => repeated (value modules room none) n #[]).Loads bytes h content h' →
      (value modules (room + 1) owner).Loads (Encode.tag t ++ bytes) h (K (h'.newArray content).1)
        (h'.newArray content).2) (ha : a < h0.arrays.size) (hfit : (h0.array a).size < capacity 4)
    (hitems : ∀ v ∈ (h0.array a).toList, Restores modules room h0 fuel none v) (e : h0.Extends h)
    (hbytes : Encode.each (Encode.value h0 fuel) (h0.array a).toList = .ok bytes) :
    Restored modules (room + 1) h (fuel + 1) owner (K a) (Encode.tag t ++ (Bytes.u32 (h0.array a).size ++ bytes)) := by
  obtain ⟨ws, h1, hloads, e1, hcopies⟩ := loads_items hitems hbytes e #[]
  refine ⟨K (h1.newArray ws.toArray).1, (h1.newArray ws.toArray).2, hload (.read_bind (Reader.reads_u32 hfit) ?_),
    e1.trans (.newArray h1 _), fun h' e' n hn => ?_⟩
  · simpa using hloads
  · obtain ⟨n, rfl⟩ : ∃ m, n = m + 1 := ⟨n - 1, by omega⟩
    have e'' := (Heap.Extends.newArray h1 _).trans e'
    refine (hsame ?_).content
    rw [((e.trans e1).trans e'').array_eq ha, e'.array_new]
    exact hcopies.imp fun v w hcopy => hcopy h' e'' n (by omega)

/-- A map, plain or frozen, is restored if its values are; the name is that of a module. -/
theorem restored_map {head : List UInt8} (name : Option String)
    (hsame : ∀ {h n b c}, List.Forall₂ (fun e f => e.1 = f.1 ∧ Program.sameContent h n e.2 f.2 = true)
      (h.map b).entries (h.map c).entries → Same h (n + 1) (K b) (K c))
    (hload : ∀ {bytes : List UInt8} {h h' : Heap} {content : Dict Value}, (read Reader.u32 >>= fun n =>
        entries (fun key => value modules room (name.map (·, key))) n {}).Loads bytes h content h' →
      (value modules (room + 1) owner).Loads (head ++ bytes) h (K (h'.newMap content).1) (h'.newMap content).2)
    (ha : a < h0.maps.size) (hfit : (h0.map a).size < capacity 4)
    (hentries : ∀ e ∈ (h0.map a).entries, (Bytes.ofString e.1).length < capacity 4 ∧
      Restores modules room h0 fuel (name.map (·, e.1)) e.2) (e : h0.Extends h)
    (hbytes : Encode.entries (Encode.value h0 fuel) (h0.map a) = .ok bytes) :
    Restored modules (room + 1) h (fuel + 1) owner (K a) (head ++ bytes) := by
  obtain ⟨b, hb, rfl⟩ := Encode.entries_eq_ok.1 hbytes
  obtain ⟨ws, h1, d, hd, hloads, e1, hcopies⟩ := loads_entries (fun key => name.map (·, key)) hentries hb e {}
    (by simpa using (h0.map a).nodup)
  refine ⟨K (h1.newMap d).1, (h1.newMap d).2, hload (.read_bind (Reader.reads_u32 hfit) hloads),
    e1.trans (.newMap h1 d), fun h' e' n hn => ?_⟩
  obtain ⟨n, rfl⟩ : ∃ m, n = m + 1 := ⟨n - 1, by omega⟩
  have e'' := (Heap.Extends.newMap h1 d).trans e'
  refine (hsame ?_).content
  rw [((e.trans e1).trans e'').map_eq ha, e'.map_new, hd]
  exact hcopies.imp fun x w hcopy => ⟨hcopy.1, hcopy.2 h' e'' n (by omega)⟩

/-! ### Trees -/

theorem Value.Storable.string {s : String} (h : (Value.string s).Storable modules h0 depth owner) :
    (Bytes.ofString s).length < capacity 4 := by
  cases depth <;> exact h

/-- One level of a tree is restored if the levels below it are. -/
theorem restores_of_storableOver (hm : modules.Within h0)
    (hpart : ∀ fuel owner v, part owner v → Restores modules room h0 fuel owner v)
    (htext : ∀ owner s, part owner (.string s) → (Bytes.ofString s).length < capacity 4)
    (hv : v.StorableOver modules h0 part owner) : Restores modules (room + 1) h0 fuel owner v := by
  intro bytes hbytes h e
  obtain ⟨t, b, hform, rfl⟩ := Form.of_value hbytes
  cases hform with
  | undefined =>
    refine .same (fun _ _ => .undefined) ?_
    exact .tagged (.pure _ h)
  | int i =>
    refine .same (fun _ _ => .int i) ?_
    exact .tagged (loads_read (Reader.reads_i64 i) h).map
  | float x =>
    refine .same (fun _ _ => .float rfl) ?_
    exact .tagged (loads_read (Reader.reads_f64 x) h).map
  | char c => exact restored_char c
  | bool b => exact restored_bool b
  | string s =>
    refine .same (fun _ _ => .string s) ?_
    exact .tagged (loads_read (Reader.reads_text hv) h).map
  | bytes a => exact restored_bytes e hv.1 hv.2
  | time t => exact restored_time hv
  | native f => exact restored_native hv.1 (hv.2.of_extends hm e)
  | function hb => exact restored_function hv hb
  | error hb =>
    obtain ⟨w, h', hload, e', hcopy⟩ := hpart _ _ _ hv _ hb h e
    refine ⟨.error w, h', ?_, e', fun h'' e'' n hn => (Same.error (hcopy h'' e'' n hn)).content⟩
    exact .tagged hload.map
  | array hb =>
    refine restored_array .array (fun hloads => ?_) hv.1 hv.2.1 (fun v hmem => hpart _ _ v (hv.2.2 v hmem)) e hb
    exact .tagged (hloads.bind_alloc (fun content h => h.newArray content) Value.array)
  | frozenArray hb =>
    refine restored_array .frozenArray (fun hloads => ?_) hv.1 hv.2.1 (fun v hmem => hpart _ _ v (hv.2.2 v hmem)) e hb
    exact .tagged (hloads.bind_alloc (fun content h => h.newArray content) Value.frozenArray)
  | map hb =>
    refine restored_map none .map (fun hloads => ?_) hv.1 hv.2.1
      (fun x hmem => ⟨(hv.2.2 x hmem).1, hpart _ _ _ (hv.2.2 x hmem).2⟩) e hb
    exact .tagged (hloads.bind_alloc (fun content h => h.newMap content) Value.map)
  | frozenMap hname hb =>
    refine restored_map none .frozenMap (fun hloads => ?_) hv.1 hv.2.1
      (fun x hmem => ⟨(hv.2.2 x hmem).1, hpart _ _ _ (hname ▸ (hv.2.2 x hmem).2)⟩) e hb
    exact .tagged (hloads.bind_alloc (fun content h => h.newMap content) Value.frozenMap)
  | @module n a b name hname hb =>
    have hentries := fun x hmem => And.intro (hv.2.2 x hmem).1 (hpart n _ _ (hname ▸ (hv.2.2 x hmem).2))
    -- The name is itself an attribute, so it fits as every text in the tree does.
    have hfit : (Bytes.ofString name).length < capacity 4 :=
      htext _ name (hv.2.2 _ (Value.mem_of_moduleName? hname)).2
    rw [← List.append_assoc]
    refine restored_map (some name) .frozenMap (fun hloads => ?_) hv.1 hv.2.1 hentries e hb
    exact .tagged (.read_bind (Reader.reads_text hfit)
      (hloads.bind_alloc (fun content h => h.newMap content) Value.frozenMap))

/-- A value is stored as it was, with more fuel and in a later heap. -/
def StoredAlike (h0 h : Heap) (v : Value) : Prop :=
  ∀ m n bytes, m ≤ n → Encode.value h0 m v = .ok bytes → Encode.value h n v = .ok bytes

theorem StoredAlike.entries (e : h0.Extends h) (ha : a < h0.maps.size)
    (hvalues : ∀ x ∈ (h0.map a).entries, StoredAlike h0 h x.2) {m n : Nat} (hmn : m ≤ n)
    (hbytes : Encode.entries (Encode.value h0 m) (h0.map a) = .ok bytes) :
    Encode.entries (Encode.value h n) (h.map a) = .ok bytes := by
  rw [e.map_eq ha]
  exact Encode.entries_congr (List.forall₂_same.2 fun x hx => ⟨rfl, fun b => hvalues x hx m n b hmn⟩) hbytes

theorem storedAlike_of_storableOver (e : h0.Extends h) (hpart : ∀ owner v, part owner v → StoredAlike h0 h v)
    (hv : v.StorableOver modules h0 part owner) : StoredAlike h0 h v := by
  intro m n bytes hmn hbytes
  obtain ⟨t, b, hform, rfl⟩ := Form.of_value hbytes
  suffices hlater : Form h n v t b from hlater.value_eq
  cases hform with
  | bytes a => exact e.buffer_eq hv.1 ▸ .bytes a
  | function hb => exact .function hb
  | error hb => exact .error (hpart _ _ hv m n _ hmn hb)
  | @array m a b hb =>
    obtain ⟨n, rfl⟩ : ∃ k, n = k + 1 := ⟨n - 1, by omega⟩
    have hitems := fun x hx b => hpart _ x (hv.2.2 x hx) m n b (by omega)
    have hsame := e.array_eq hv.1
    exact hsame ▸ .array (hsame.symm ▸ Encode.each_congr (List.forall₂_same.2 hitems) hb)
  | @frozenArray m a b hb =>
    obtain ⟨n, rfl⟩ : ∃ k, n = k + 1 := ⟨n - 1, by omega⟩
    have hitems := fun x hx b => hpart _ x (hv.2.2 x hx) m n b (by omega)
    have hsame := e.array_eq hv.1
    exact hsame ▸ .frozenArray (hsame.symm ▸ Encode.each_congr (List.forall₂_same.2 hitems) hb)
  | map hb =>
    obtain ⟨n, rfl⟩ : ∃ k, n = k + 1 := ⟨n - 1, by omega⟩
    exact .map (StoredAlike.entries e hv.1 (fun x hx => hpart _ _ (hv.2.2 x hx).2) (by omega) hb)
  | frozenMap hname hb =>
    obtain ⟨n, rfl⟩ : ∃ k, n = k + 1 := ⟨n - 1, by omega⟩
    rw [Value.moduleName?_frozenMap, ← e.map_eq hv.1, ← Value.moduleName?_frozenMap] at hname
    exact .frozenMap hname (StoredAlike.entries e hv.1 (fun x hx => hpart _ _ (hv.2.2 x hx).2) (by omega) hb)
  | module hname hb =>
    obtain ⟨n, rfl⟩ : ∃ k, n = k + 1 := ⟨n - 1, by omega⟩
    rw [Value.moduleName?_frozenMap, ← e.map_eq hv.1, ← Value.moduleName?_frozenMap] at hname
    exact .module hname (StoredAlike.entries e hv.1 (fun x hx => hpart _ _ (hv.2.2 x hx).2) (by omega) hb)
  | _ => constructor

theorem storedAlike_of_storable (e : h0.Extends h) (hv : v.Storable modules h0 depth owner) : StoredAlike h0 h v := by
  induction depth generalizing owner v with
  | zero => exact storedAlike_of_storableOver e (fun _ _ hx => hx.elim) hv
  | succ depth ih => exact storedAlike_of_storableOver e (fun _ _ hx => ih hx) hv

/-- Loading what a value was stored as gives a copy of it, with as much room as it has levels. -/
theorem restores_of_storable (hm : modules.Within h0) (hv : v.Storable modules h0 depth owner) :
    Restores modules (depth + 1) h0 fuel owner v := by
  induction depth generalizing fuel owner v with
  | zero => exact restores_of_storableOver hm (fun _ _ _ h => h.elim) (fun _ _ h => h.elim) hv
  | succ depth ih =>
    exact restores_of_storableOver hm (fun _ _ _ h => ih h) (fun _ _ h => h.string) hv

end

end ScriptEngine
