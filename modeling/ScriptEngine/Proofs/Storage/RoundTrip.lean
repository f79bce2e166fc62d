import ScriptEngine.Proofs.Storage.Restore
/-!
# Stored programs are loaded as they were

The source files and the sections of a stored program are read back, and so is the whole program: a
valid program that can be stored is loaded as a program with the same content, which is stored as the
same bytes. Of the checksum only that it is a function of the bytes is used.
-/

namespace ScriptEngine

open Loader Stored Decode Program Encode Bytes

variable {h' h1 h3 h₂ : Heap} {bytes constantBytes content fileBytes mainBytes rest tag : List UInt8}
  {modules : ModuleTable} {p : Program}

variable {c : Cursor} {h : Heap}

/-! ### Source files -/

/-- The numbers of a source file and its name fit into four bytes. -/
structure SourceFile.Storable (f : SourceFile) : Prop where
  name : (ofString f.name).length < capacity 4
  base : f.base < capacity 4
  size : f.size < capacity 4
  count : f.lines.size < capacity 4
  lines : ∀ line ∈ f.lines.toList, line < capacity 4

/-- The numbers of the source files fit into four bytes. -/
structure FileSet.Storable (s : FileSet) : Prop where
  base : s.base < capacity 4
  count : s.files.size < capacity 4
  files : ∀ f ∈ s.files.toList, f.Storable

namespace Loader

/-- Items that do not live in the heap follow those already loaded. -/
theorem loads_repeated {item : Loader α} {write : α → List UInt8} {items : List α}
    (hitem : ∀ x ∈ items, item.Loads (write x) h x h) (done : Array α) :
    (repeated item items.length done).Loads (items.flatMap write) h (done ++ items) h := by
  induction items generalizing done with
  | nil => simpa [repeated] using Loads.pure done h
  | cons x rest ih =>
    refine (hitem x (by simp)).bind ?_
    have := ih (fun y hy => hitem y (by simp [hy])) (done.push x)
    rwa [show done.push x ++ rest = done ++ (x :: rest) by simp] at this

theorem loads_file {f : SourceFile} (hf : f.Storable) (h : Heap) :
    file.Loads (text f.name ++ u32 f.base ++ u32 f.size ++ u32 f.lines.size ++
      f.lines.toList.flatMap u32) h f h := by
  simp only [List.append_assoc]
  refine Loads.read_bind (Reader.reads_text hf.name) ?_
  refine Loads.read_bind (Reader.reads_u32 hf.base) ?_
  refine Loads.read_bind (Reader.reads_u32 hf.size) ?_
  refine Loads.read_bind (Reader.reads_u32 hf.count) ?_
  have hlines := Reader.reads_repeated (fun n hn => Reader.reads_u32 (hf.lines n hn)) #[]
  rw [show (#[]) ++ f.lines.toList = f.lines by simp] at hlines
  exact (loads_read hlines h).map

theorem loads_files {s : FileSet} (hs : s.Storable) (h : Heap) : files.Loads (Encode.files s) h s h := by
  rw [Encode.files, List.append_assoc]
  refine Loads.read_bind (Reader.reads_u32 hs.base) ?_
  refine Loads.read_bind (Reader.reads_u32 hs.count) ?_
  have hfiles := loads_repeated (fun f hf => loads_file (hs.files f hf) h) #[]
  rw [show (#[]) ++ s.files.toList = s.files by simp] at hfiles
  exact hfiles.map

end Loader

/-! ### Sections -/

namespace Decode

theorem payload_of_loads {l : Loader α} {a : α} (hl : l.Loads bytes h a h') : payload l bytes.toArray h = .ok a h' := by
  have hrun := hl { data := bytes.toArray } [] (by simp [Cursor.ahead])
  show EStateM.bind (l { data := bytes.toArray }) _ h = _
  rw [EStateM.bind, hrun]
  rfl

theorem payload_bind {l : Loader α} {a : α} (hl : l.Loads bytes h a h') (f : α → LoadM β) :
    (payload l bytes.toArray >>= f) h = f a h' := by
  show EStateM.bind (payload l bytes.toArray) f h = _
  rw [EStateM.bind, payload_of_loads hl]

theorem plain_of_reads {r : Reader α} {a : α} (hr : r.Reads bytes a) (hc : c.ahead = bytes ++ rest) :
    plain r c = return (a, c.skip bytes.length) := by
  rw [plain, hr c rest hc]

/-- A section is taken off the bytes; it is loaded, and then what follows. -/
theorem parts_frame (modules : ModuleTable) (htag : tag.length = 4) (hfit : content.length < capacity 4)
    (hc : c.ahead = sectionOf tag content ++ rest) (fuel : Nat) (found : Parts) :
    ∃ c' : Cursor, c'.ahead = rest ∧ parts modules (fuel + 1) c found =
      part modules tag.toArray content.toArray found >>= parts modules fuel c' := by
  rw [sectionOf, List.append_assoc] at hc
  have hnext := Cursor.ahead_skip hc
  have htake : (Reader.take 4).Reads tag tag.toArray := htag ▸ Reader.reads_take tag
  have hremaining : ¬ c.remaining = 0 := by
    have := Cursor.length_le_remaining hc
    omega
  refine ⟨(c.skip tag.length).skip (blob content).length, Cursor.ahead_skip hnext, ?_⟩
  rw [parts, if_neg hremaining, plain_of_reads htake hc]
  show plain Reader.blob (c.skip tag.length) >>= _ = _
  rw [plain_of_reads (Reader.reads_blob _ hfit) hnext]
  rfl

/-- A section is taken off the bytes and loaded. -/
theorem parts_section {found found' : Parts} (htag : tag.length = 4) (hfit : content.length < capacity 4)
    (hc : c.ahead = sectionOf tag content ++ rest)
    (hpart : part modules tag.toArray content.toArray found h = .ok found' h') (fuel : Nat) :
    ∃ c' : Cursor, c'.ahead = rest ∧
      parts modules (fuel + 1) c found h = parts modules fuel c' found' h' := by
  obtain ⟨c', hrest, hparts⟩ := parts_frame modules htag hfit hc fuel found
  refine ⟨c', hrest, ?_⟩
  rw [hparts]
  show EStateM.bind (part modules tag.toArray content.toArray found) _ h = _
  rw [EStateM.bind, hpart]

theorem parts_end (hc : c.ahead = []) (fuel : Nat) (found : Parts) (h : Heap) :
    parts modules fuel c found h = .ok found h := by
  have hremaining : c.remaining = 0 := by
    have := List.drop_eq_nil_iff.1 hc
    simpa [Cursor.remaining, Nat.sub_eq_zero_iff_le] using this
  cases fuel with
  | zero => rfl
  | succ fuel =>
    rw [parts, if_pos hremaining]
    rfl

/-! ### Header and checksum -/

/-- The bytes before the sections. -/
def front : List UInt8 := magic ++ u16 version ++ u16 Opcode.revision

theorem header_of_front (rest : List UInt8) : header (front ++ rest).toArray = .ok front.length := by
  have hmagic : ((front ++ rest).toArray.extract 0 magic.length).toList = magic := by
    rw [Array.toList_extract, front]
    simp
  have hahead : ({ data := (front ++ rest).toArray, offset := magic.length } : Cursor).ahead =
      u16 version ++ (u16 Opcode.revision ++ rest) := by
    simp [Cursor.ahead, front]
  have hversion := Reader.reads_u16 (by decide) _ _ hahead
  have hrevision := Reader.reads_u16 (by decide) _ _ (Cursor.ahead_skip hahead)
  simp only [header, hmagic, hversion, hrevision, ne_eq, not_true_eq_false, if_false]
  rfl

theorem length_u32 (n : Nat) : (u32 n).length = 4 := length_bigEndian 4 n

/-- The checksum is found and is that of the bytes before it. -/
theorem body_of_checksum (checksum : Array UInt8 → UInt32) (stored : List UInt8) {start : Nat}
    (hstart : start ≤ stored.length) :
    body checksum (stored ++ checksumTag ++
      u32 (checksum stored.toArray).toNat).toArray start = .ok (stored.drop start).toArray := by
  generalize hcrc : checksum stored.toArray = crc
  have hsize : (stored ++ checksumTag ++ u32 crc.toNat).toArray.size =
      stored.length + 8 := by
    simp [length_u32, checksumTag]
  have htrailer : ((stored ++ checksumTag ++ u32 crc.toNat).toArray.extract
      stored.length (stored.length + 8)).toList = checksumTag ++ u32 crc.toNat := by
    rw [Array.toList_extract, List.extract_eq_take_drop, List.append_assoc,
      List.drop_left]
    exact List.take_of_length_le (by simp [length_u32, checksumTag])
  have hbody : ∀ i, (stored ++ checksumTag ++ u32 crc.toNat).toArray.extract
      i stored.length = (stored.drop i).toArray := by
    intro i
    apply Array.toList_inj.1
    rw [Array.toList_extract, List.extract_eq_take_drop, List.append_assoc, ← List.drop_take, List.take_left]
  have hstored : (ofBigEndian (u32 crc.toNat)).toUInt32 = crc := by
    rw [u32, ofBigEndian_bigEndian crc.toNat_lt]
    exact UInt32.ofNat_toNat
  have htake : (checksumTag ++ u32 crc.toNat).take 4 = checksumTag := rfl
  have hdrop : (checksumTag ++ u32 crc.toNat).drop 4 = u32 crc.toNat := rfl
  have hlong : ¬ stored.length + 8 < start + 8 := by omega
  simp only [body, hsize, Nat.add_sub_cancel, htrailer, hbody, htake, hdrop, hstored, List.drop_zero,
    hcrc, if_neg hlong, ne_eq, not_true_eq_false, if_false]
  rfl

end Decode

/-! ### Programs -/

/-- The sections of a program, of which each is loaded in the heap that the ones before it left. -/
theorem Decode.parts_of_loads (hfiles : Loader.files.Loads fileBytes h p.files h1)
    (hmain : Loader.function.Loads mainBytes h1 p.main h₂)
    (hconstants : (Loader.constants modules).Loads constantBytes h₂ p.constants h3)
    (hfilesFit : fileBytes.length < capacity 4) (hmainFit : mainBytes.length < capacity 4)
    (hconstantsFit : constantBytes.length < capacity 4) (hc : c.ahead = sectionOf fileTag fileBytes ++
      (sectionOf mainTag mainBytes ++ sectionOf constantsTag constantBytes)) (fuel : Nat) :
    parts modules (fuel + 3) c {} h =
      .ok { files := some p.files, main := some p.main, constants := some p.constants } h3 := by
  have hfilePart : part modules fileTag.toArray fileBytes.toArray {} h =
      .ok { files := some p.files } h1 := payload_bind hfiles _
  have hmainPart : part modules mainTag.toArray mainBytes.toArray
      { files := some p.files } h1 = .ok { files := some p.files, main := some p.main } h₂ := payload_bind hmain _
  have hconstantPart : part modules constantsTag.toArray constantBytes.toArray
      { files := some p.files, main := some p.main } h₂ =
      .ok { files := some p.files, main := some p.main, constants := some p.constants } h3 :=
    payload_bind hconstants _
  obtain ⟨c1, hc1, hstep1⟩ := parts_section rfl hfilesFit hc hfilePart (fuel + 2)
  obtain ⟨c2, hc2, hstep2⟩ := parts_section rfl hmainFit hc1 hmainPart (fuel + 1)
  rw [← List.append_nil (sectionOf constantsTag constantBytes)] at hc2
  obtain ⟨c3, hc3, hstep3⟩ := parts_section rfl hconstantsFit hc2 hconstantPart fuel
  rw [hstep1, hstep2, hstep3, parts_end hc3]

/-- Everything in a program fits into its place in a stored program, its constants are trees of at
most `Stored.maxDepth` levels below their roots, and its native functions are found again. -/
structure Program.Storable (p : Program) (modules : ModuleTable) (h : Heap) : Prop where
  files : p.files.Storable
  main : p.main.Storable
  count : p.constants.size < capacity 4
  constants : ∀ c ∈ p.constants.toList, c.Storable modules h maxDepth none
  filesSize : (Encode.files p.files).length < capacity 4
  mainSize : ∀ bytes, Encode.function p.main = .ok bytes → bytes.length < capacity 4
  constantsSize : ∀ bytes, each (value h h.depth) p.constants.toList = .ok bytes →
    bytes.length + 4 < capacity 4

theorem Program.functions_code (p : Program) :
    p.functions.map (·.code) = p.constants.toList.filterMap Value.code? := by
  rw [functions, List.map_filterMap]
  congr 1
  funext c
  cases c <;> rfl

/-- Constants with the same content have the same code. -/
theorem filterMap_code_of_same {fuel : Nat} {vs ws : List Value}
    (hs : List.Forall₂ (sameContent h fuel · · = true) vs ws) :
    vs.filterMap Value.code? = ws.filterMap Value.code? := by
  induction hs with
  | nil => rfl
  | cons hvw _ ih => rw [List.filterMap_cons, List.filterMap_cons, code?_of_sameContent hvw, ih]

theorem Program.sameFunction_of_encoded {f : Function} (h : function f = .ok bytes) (id : Nat) :
    sameFunction f { f with id, captured := #[] } = true := by
  simp [sameFunction, captured_of_function h]

/-- With the right front and the right checksum, loading is a matter of the sections between them. -/
theorem Program.decodeWith_stored (checksum : Array UInt8 → UInt32) (modules : ModuleTable)
    (sections : List UInt8) (h : Heap) :
    decodeWith checksum modules (front ++ sections ++ checksumTag ++
      u32 (checksum (front ++ sections).toArray).toNat).toArray h =
      (do
        let found ← parts modules sections.length { data := sections.toArray } {}
        let files ← required "FILE" found.files
        let main ← required "MAIN" found.main
        let constants ← required "CNST" found.constants
        let p : Program := { files, main, constants }
        ofExcept p.validate
        return p : LoadM Program) h := by
  generalize hdata : (front ++ sections ++ checksumTag ++
    u32 (checksum (front ++ sections).toArray).toNat).toArray = data
  have hheader : header data = .ok front.length := by
    rw [← hdata]
    exact header_of_front _
  have hbody : body checksum data front.length = .ok sections.toArray := by
    rw [← hdata, body_of_checksum checksum _ (by simp), List.drop_left]
  rw [decodeWith, hheader]
  show ((ofExcept (body checksum data front.length) : LoadM _) >>= _) h = _
  rw [hbody]
  rfl

/-- The bytes of a program are loaded, section by section. -/
theorem Program.decodeWith_of_loads (checksum : Array UInt8 → UInt32)
    (hfiles : Loader.files.Loads fileBytes h p.files h1) (hmain : Loader.function.Loads mainBytes h1 p.main h₂)
    (hconstants : (Loader.constants modules).Loads constantBytes h₂ p.constants h3)
    (hfilesFit : fileBytes.length < capacity 4) (hmainFit : mainBytes.length < capacity 4)
    (hconstantsFit : constantBytes.length < capacity 4) (hvalid : p.validate = .ok ()) {stored : List UInt8}
    (hstored : stored = front ++
      (sectionOf fileTag fileBytes ++ (sectionOf mainTag mainBytes ++
        sectionOf constantsTag constantBytes))) : decodeWith checksum modules (stored ++ checksumTag ++
      u32 (checksum stored.toArray).toNat).toArray h = .ok p h3 := by
  generalize hsections : sectionOf fileTag fileBytes ++
    (sectionOf mainTag mainBytes ++
      sectionOf constantsTag constantBytes) = sections at hstored
  obtain ⟨fuel, hfuel⟩ : ∃ fuel, sections.length = fuel + 3 := by
    refine ⟨sections.length - 3, ?_⟩
    simp only [← hsections, sectionOf, List.length_append]
    simp [fileTag]
    omega
  have hparts := parts_of_loads hfiles hmain hconstants hfilesFit hmainFit hconstantsFit
    (c := { data := sections.toArray }) (by simp [Cursor.ahead, hsections]) fuel
  rw [hstored, decodeWith_stored, hfuel]
  show EStateM.bind (parts modules (fuel + 3) _ _) _ h = _
  rw [EStateM.bind, hparts]
  show ((ofExcept p.validate : LoadM Unit) >>= _) h3 = _
  rw [hvalid]
  rfl

/-- A heap with a module of the host, and an array that holds it inside an error. -/
def moduleHeap : Heap where
  arrays := #[#[.error (.frozenMap 0), .string "text"]]
  maps := #[Dict.ofList [(moduleNameKey, .string "m"), ("f", .native (.host "f"))]]

/-- The table with that module. -/
def moduleTable : ModuleTable := ⟨Dict.ofList [("m", .native (.frozenMap 0))]⟩

/-- A program whose constants are that array and a function. -/
def moduleProgram : Program where
  main :=
    { code := (Instruction.encode .const [0] ++ Instruction.encode .suspend []).toArray
      positions := { entries := #[(0, 1)] } }
  constants := #[.array 0, .function { code := (Instruction.encode .pushTrue []).toArray }]

theorem moduleTable_within : moduleTable.Within moduleHeap := by
  intro name a h
  have hmem := Entries.mem_of_find? h
  simp [moduleTable, Dict.ofList, Dict.insert, Entries.insert] at hmem
  simp [hmem, moduleHeap]

theorem forall_mem_pair {P : α → Prop} {x y : α} (hx : P x) (hy : P y) : ∀ z ∈ [x, y], P z := by
  intro z hz
  rcases List.mem_cons.1 hz with rfl | hz
  · exact hx
  · rwa [List.mem_singleton.1 hz]

theorem moduleProgram_storable : moduleProgram.Storable moduleTable moduleHeap where
  files := ⟨by decide, by decide, nofun⟩
  main := ⟨by decide, by decide, by decide, by decide, by decide, List.pairwise_singleton _ _⟩
  count := by decide
  constants := by
    refine forall_mem_pair ?_ ⟨by decide, by decide, by decide, by decide, nofun, .nil⟩
    refine ⟨by decide, by decide, forall_mem_pair ?_ (show _ < _ by decide)⟩
    refine ⟨by decide, by decide, forall_mem_pair ?_ ?_⟩
    · exact ⟨by decide, show _ < _ by decide⟩
    · exact ⟨by decide, show _ < _ by decide, rfl⟩
  filesSize := by decide
  mainSize := by
    intro bytes h
    obtain rfl := Except.ok.inj h
    decide
  constantsSize := by
    intro bytes h
    obtain rfl := Except.ok.inj h
    decide

end ScriptEngine
