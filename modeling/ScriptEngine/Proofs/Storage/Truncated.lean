import ScriptEngine.Proofs.Storage.Validated
/-!
# Stored programs that are cut short

The checksum of a stored program is looked for at the end of the data, so a cut can move it into a
constant that looks like one. Such data is refused all the same: the sections that are left are a
beginning of those that were written, so they end inside a section or before the last one.
-/

namespace ScriptEngine

open Encode Stored

variable {data : Array UInt8} {checksum : Array UInt8 → UInt32} {bytes content tag : List UInt8}
  {modules : ModuleTable} {fuel start : Nat} {found found' : Parts} {p : Program}

variable {c : Cursor} {h h' : Heap} {lost : List UInt8}

/-! ### Readers at the end of the data -/

/-- A cut through two parts is either behind the first one or inside it. -/
theorem append_cut {first second left lost : List α} (h : first ++ second = left ++ lost) (_ : lost ≠ []) :
    (∃ rest, left = first ++ rest ∧ second = rest ++ lost) ∨
      ∃ missing, missing ≠ [] ∧ first = left ++ missing := by
  rcases List.append_eq_append_iff.1 h with ⟨rest, hleft, hsecond⟩ | ⟨missing, hfirst, hmissing⟩
  · exact .inl ⟨rest, hleft, hsecond⟩
  · by_cases hempty : missing = []
    · subst hempty
      exact .inl ⟨[], by simpa using hfirst.symm, by simpa using hmissing.symm⟩
    · exact .inr ⟨missing, hempty, hfirst⟩

namespace Reader

/-- When only a beginning of `bytes` is ahead, the reader fails. -/
def Refuses (r : Reader α) (bytes : List UInt8) : Prop :=
  ∀ (c : Cursor) (lost : List UInt8), lost ≠ [] → bytes = c.ahead ++ lost → ∃ e c', r c = .error e c'

theorem Refuses.bind {r : Reader α} {f : α → Reader β} {more : List UInt8} {a : α} (hr : r.Refuses bytes)
    (hreads : r.Reads bytes a) (hf : (f a).Refuses more) : (r >>= f).Refuses (bytes ++ more) := by
  intro c lost hlost h
  show ∃ e c', EStateM.bind r f c = _
  rw [EStateM.bind]
  rcases append_cut h hlost with ⟨rest, hahead, hmore⟩ | ⟨missing, hmissing, hbytes⟩
  · rw [hreads c rest hahead]
    exact hf (c.skip bytes.length) lost hlost (by rw [Cursor.ahead_skip hahead, hmore])
  · obtain ⟨e, c', herror⟩ := hr c missing hmissing hbytes
    exact ⟨e, c', by rw [herror]⟩

theorem refuses_take (bytes : List UInt8) : Refuses (take bytes.length) bytes := by
  intro c lost hlost h
  have hshort : c.remaining < bytes.length := by
    have hlength := congrArg List.length h
    have := List.length_pos_of_ne_nil hlost
    simp only [Cursor.ahead, List.length_append, List.length_drop, Array.length_toList] at hlength
    unfold Cursor.remaining
    omega
  exact ⟨_, _, by rw [take, if_pos hshort]⟩

theorem refuses_u32 (n : Nat) : Refuses u32 (Bytes.u32 n) := by
  intro c lost hlost h
  have htake := refuses_take (Bytes.u32 n)
  rw [Decode.length_u32] at htake
  obtain ⟨e, c', herror⟩ := htake c lost hlost h
  refine ⟨e, c', ?_⟩
  show EStateM.bind (take 4) _ c = _
  rw [EStateM.bind, herror]

theorem refuses_blob (bytes : List UInt8) (h : bytes.length < capacity 4) : Refuses blob (Bytes.blob bytes) :=
  (refuses_u32 bytes.length).bind (reads_u32 h) (refuses_take bytes)

theorem cursor_of_u16 {c' : Cursor} {n : Nat} (h : u16 c = .ok n c') : c' = c.skip 2 := by
  change EStateM.bind (take 2) _ c = _ at h
  rw [EStateM.bind, take] at h
  split at h
  · next hok =>
    split at hok
    · cases hok
    · cases hok
      cases h
      rfl
  · cases h

end Reader

namespace Decode

/-! ### Sections that are cut short -/

theorem plain_of_refuses {r : Reader α} (hr : r.Refuses bytes) (hlost : lost ≠ []) (hc : bytes = c.ahead ++ lost) :
    ∃ e, plain r c = throw e := by
  obtain ⟨e, c', herror⟩ := hr c lost hlost hc
  exact ⟨.data e, by rw [plain, herror]⟩

/-- Loading fails inside a section that is not there as a whole. -/
theorem parts_inside (modules : ModuleTable) (htag : tag.length = 4) (hfit : content.length < capacity 4)
    (hlost : lost ≠ []) (hc : sectionOf tag content = c.ahead ++ lost) (hremaining : c.remaining ≠ 0) (fuel : Nat)
    (found : Parts) : ∃ e, parts modules (fuel + 1) c found = throw e := by
  rw [parts, if_neg hremaining]
  rcases append_cut hc hlost with ⟨rest, hahead, hblob⟩ | ⟨missing, hmissing, htake⟩
  · have hreads : (Reader.take 4).Reads tag tag.toArray := htag ▸ Reader.reads_take tag
    rw [plain_of_reads hreads hahead]
    obtain ⟨e, herror⟩ := plain_of_refuses (Reader.refuses_blob content hfit) hlost
      (by rw [Cursor.ahead_skip hahead, hblob])
    refine ⟨e, ?_⟩
    show plain Reader.blob (c.skip tag.length) >>= _ = _
    rw [herror]
    rfl
  · obtain ⟨e, herror⟩ := plain_of_refuses (htag ▸ Reader.refuses_take tag) hmissing htake
    refine ⟨e, ?_⟩
    rw [herror]
    rfl

/-- What loading has found when the cut is in a section or behind it: nothing more, or that section
and what is found in what follows. -/
theorem parts_cut {rest : List UInt8} (htag : tag.length = 4) (hfit : content.length < capacity 4) (hlost : lost ≠ [])
    (hc : sectionOf tag content ++ rest = c.ahead ++ lost) (hparts : parts modules fuel c found h = .ok found' h') :
    found' = found ∨ ∃ (c' : Cursor) (found1 : Parts) (h₁ : Heap) (fuel' : Nat),
      rest = c'.ahead ++ lost ∧ part modules tag.toArray content.toArray found h = .ok found1 h₁ ∧
        parts modules fuel' c' found1 h₁ = .ok found' h' := by
  cases fuel with
  | zero =>
    cases hparts
    exact .inl rfl
  | succ fuel =>
    by_cases hremaining : c.remaining = 0
    · rw [parts, if_pos hremaining] at hparts
      cases hparts
      exact .inl rfl
    rcases append_cut hc hlost with ⟨ahead, hahead, hrest⟩ | ⟨missing, hmissing, hsection⟩
    · obtain ⟨c', hc', hframe⟩ := parts_frame modules htag hfit hahead fuel found
      rw [hframe] at hparts
      change EStateM.bind (part modules tag.toArray content.toArray found) _ h = _ at hparts
      rw [EStateM.bind] at hparts
      split at hparts
      · next found1 h₁ hpart => exact .inr ⟨c', found1, h₁, fuel, by rw [hc', hrest], hpart, hparts⟩
      · cases hparts
    · obtain ⟨e, herror⟩ := parts_inside modules htag hfit hmissing hsection hremaining fuel
        found
      rw [herror] at hparts
      cases hparts

/-- Only the section of the constants gives constants. -/
theorem constants_of_part {tag content : Array UInt8} (htag : tag.toList ≠ constantsTag)
    (hpart : part modules tag content found h = .ok found' h') : found'.constants = found.constants := by
  rw [part] at hpart
  split at hpart
  · obtain ⟨files, h₁, -, hfound⟩ := Program.exists_of_bind_eq_ok hpart
    cases hfound
    rfl
  · split at hpart
    · obtain ⟨main, h₁, -, hfound⟩ := Program.exists_of_bind_eq_ok hpart
      cases hfound
      rfl
    · cases hpart
      rfl

/-- Of the three sections of a program, cut anywhere, no constants are loaded. -/
theorem no_constants_of_cut {fileBytes mainBytes constantBytes : List UInt8} (hfiles : fileBytes.length < capacity 4)
    (hmain : mainBytes.length < capacity 4) (hconstants : constantBytes.length < capacity 4) (hlost : lost ≠ [])
    (hc : sectionOf fileTag fileBytes ++
      (sectionOf mainTag mainBytes ++
        sectionOf constantsTag constantBytes) = c.ahead ++ lost) (hparts : parts modules fuel c {} h = .ok found h') :
    found.constants = none := by
  rw [← List.append_nil (sectionOf constantsTag constantBytes)] at hc
  rcases parts_cut rfl hfiles hlost hc hparts with rfl | ⟨c1, found1, h₁, fuel1, hc1, hpart1, hparts1⟩
  · rfl
  have hnone1 := constants_of_part (by decide) hpart1
  rcases parts_cut rfl hmain hlost hc1 hparts1 with rfl | ⟨c2, found2, h₂, fuel2, hc2, hpart2, hparts2⟩
  · exact hnone1
  have hnone2 := constants_of_part (by decide) hpart2
  rcases parts_cut rfl hconstants hlost hc2 hparts2 with rfl | ⟨c3, _, _, _, hc3, _⟩
  · rw [hnone2, hnone1]
  -- Behind the last section nothing is left to be lost.
  · exact absurd (List.append_eq_nil_iff.1 hc3.symm).2 hlost

/-! ### The end of the data -/

theorem header_offset (h : header data = .ok start) : start = front.length := by
  simp only [header] at h
  split at h
  · cases h
  split at h
  · cases h
  next version c hversion =>
    by_cases hv : version ≠ Stored.version
    · rw [if_pos hv] at h
      cases h
    rw [if_neg hv] at h
    split at h
    · cases h
    next revision c' hrevision =>
      split at h
      · cases h
      cases h
      rw [Reader.cursor_of_u16 hrevision, Reader.cursor_of_u16 hversion]
      rfl

/-- What is handed on are the bytes before the last eight. -/
theorem body_eq {bytes : Array UInt8} (h : body checksum data start = .ok bytes) :
    start + 8 ≤ data.size ∧ bytes = data.extract start (data.size - 8) := by
  simp only [body] at h
  split at h
  · cases h
  next hlong =>
    split at h
    · cases h
    split at h
    · cases h
    cases h
    exact ⟨Nat.le_of_not_lt hlong, rfl⟩

/-- Without the end of the stored bytes, the sections that are handed on lack their end. -/
theorem sections_of_cut {sections trailer cut : List UInt8} {bytes : Array UInt8} (htrailer : trailer.length = 8)
    (hlost : lost ≠ []) (hcut : front ++ sections ++ trailer = cut ++ lost) (hheader : header cut.toArray = .ok start)
    (hbody : body checksum cut.toArray start = .ok bytes) :
    ∃ missing, missing ≠ [] ∧ sections = bytes.toList ++ missing := by
  obtain ⟨hlong, rfl⟩ := body_eq hbody
  rw [header_offset hheader] at *
  have hlength := congrArg List.length hcut
  have hpositive := List.length_pos_of_ne_nil hlost
  simp only [List.length_append, List.size_toArray] at hlength hlong
  have hdrop : sections ++ trailer = cut.drop front.length ++ lost := by
    have := congrArg (List.drop front.length) hcut
    rwa [List.append_assoc, List.drop_left, List.drop_append_of_le_length (by omega)] at this
  have hdata : (cut.toArray.extract front.length (cut.toArray.size - 8)).toList =
      sections.take (cut.length - 8 - front.length) := by
    rw [Array.toList_extract]
    have := congrArg (List.take (cut.length - 8 - front.length)) hdrop
    rw [List.take_append_of_le_length (by omega), List.take_append_of_le_length] at this
    · exact this.symm
    · rw [List.length_drop]
      omega
  refine ⟨sections.drop (cut.length - 8 - front.length), ?_, ?_⟩
  · rw [ne_eq, List.drop_eq_nil_iff]
    omega
  · rw [hdata, List.take_append_drop]

end Decode

/-! ### Programs -/

/-- The sections of a stored program. -/
def Program.sections (p : Program) (main constants : List UInt8) : List UInt8 :=
  Encode.sectionOf fileTag (Encode.files p.files) ++ (Encode.sectionOf mainTag main ++
    Encode.sectionOf constantsTag (Bytes.u32 p.constants.size ++ constants))

/-- A stored program consists of the front, the sections and the checksum. -/
theorem Program.eq_sections_of_encodeWith (hencoded : p.encodeWith checksum h = .ok bytes) :
    ∃ main constants, function p.main = .ok main ∧
      each (value h h.depth) p.constants.toList = .ok constants ∧
      bytes = Decode.front ++ p.sections main constants ++ (checksumTag ++
        Bytes.u32 (checksum (Decode.front ++ p.sections main constants).toArray).toNat) := by
  obtain ⟨main, hmain, hencoded⟩ := Encode.exists_of_bind_eq_ok hencoded
  obtain ⟨constants, hconstants, hencoded⟩ := Encode.exists_of_bind_eq_ok hencoded
  refine ⟨main, constants, hmain, hconstants, ?_⟩
  rw [← Except.ok.inj hencoded]
  simp only [Decode.front, Program.sections, List.append_assoc]

/-- Each section of a stored program fits into the length that precedes it. -/
structure Program.Framed (p : Program) (h : Heap) : Prop where
  files : (Encode.files p.files).length < capacity 4
  main : ∀ bytes, Encode.function p.main = .ok bytes → bytes.length < capacity 4
  constants : ∀ bytes, each (value h h.depth) p.constants.toList = .ok bytes →
    bytes.length + 4 < capacity 4

theorem Program.eq_ok_of_ofExcept {x : Except ProgramError α} {a : α}
    (hok : (ofExcept x : LoadM α) h = .ok a h') : x = .ok a := by
  cases x with
  | error e => cases hok
  | ok b =>
    cases hok
    rfl

/-- What a loaded program was read from: header, checksum and sections are there, and among them the
constants. -/
theorem Program.sections_of_decodeWith (hload : Program.decodeWith checksum modules data h = .ok p h') :
    ∃ start bytes found h₁ h₂, Decode.header data = .ok start ∧
      Decode.body checksum data start = .ok bytes ∧
      Decode.parts modules bytes.size { data := bytes } {} h₁ = .ok found h₂ ∧ found.constants ≠ none := by
  obtain ⟨start, _, hheader, hload⟩ := exists_of_bind_eq_ok hload
  obtain ⟨bytes, h₁, hbody, hload⟩ := exists_of_bind_eq_ok hload
  obtain ⟨found, h₂, hparts, hload⟩ := exists_of_bind_eq_ok hload
  obtain ⟨_, _, -, hload⟩ := exists_of_bind_eq_ok hload
  obtain ⟨_, _, -, hload⟩ := exists_of_bind_eq_ok hload
  obtain ⟨_, _, hconstants, -⟩ := exists_of_bind_eq_ok hload
  refine ⟨start, bytes, found, h₁, h₂, eq_ok_of_ofExcept hheader, eq_ok_of_ofExcept hbody, hparts, ?_⟩
  intro hnone
  rw [hnone] at hconstants
  cases hconstants

/-- A stored program that is cut short is not loaded, whatever the modules and the checksum are: also
when the data end in what looks like a checksum that matches. -/
theorem Program.decode_cut_short {checksum : Array UInt8 → UInt32} {p : Program} {h : Heap}
    {bytes cut : List UInt8} (hencoded : p.encodeWith checksum h = .ok bytes) (hp : p.Framed h)
    (hcut : cut <+: bytes) (hne : cut ≠ bytes) (checksum' : Array UInt8 → UInt32)
    (modules : ModuleTable) (heap : Heap) :
    ∃ e heap', Program.decodeWith checksum' modules cut.toArray heap = .error e heap' := by
  obtain ⟨main, constants, hmain, hconstants, hbytes⟩ := Program.eq_sections_of_encodeWith hencoded
  obtain ⟨lost, rfl⟩ := hcut
  have hlost : lost ≠ [] := fun hnil => hne (by rw [hnil, List.append_nil])
  have hconstantsFit : (Bytes.u32 p.constants.size ++ constants).length < capacity 4 := by
    rw [List.length_append, Decode.length_u32, Nat.add_comm]
    exact hp.constants constants hconstants
  cases hload : Program.decodeWith checksum' modules cut.toArray heap with
  | error e heap' => exact ⟨e, heap', rfl⟩
  | ok q heap' =>
    obtain ⟨start, left, found, h₁, h₂, hheader, hbody, hparts, hfound⟩ :=
      Program.sections_of_decodeWith hload
    obtain ⟨missing, hmissing, hsections⟩ := Decode.sections_of_cut rfl hlost hbytes.symm hheader hbody
    exact absurd (Decode.no_constants_of_cut (c := { data := left }) hp.files (hp.main main hmain) hconstantsFit
      hmissing hsections hparts) hfound

/-- A program whose constant looks like the end of a stored program. -/
def endingProgram : Program where
  main := { code := (Instruction.encode .suspend []).toArray }
  constants := #[.bytes 0]

/-- The heap with that constant. -/
def endingHeap : Heap where
  buffers := #[(checksumTag ++ Bytes.u32 0).toArray]

theorem endingProgram_framed : endingProgram.Framed endingHeap where
  files := by decide
  main := by
    intro bytes h
    obtain rfl := Except.ok.inj h
    decide
  constants := by
    intro bytes h
    obtain rfl := Except.ok.inj h
    decide

/-- Without its own checksum the stored program ends in the constant, which has the tag and the value
of a checksum that matches. -/
theorem Program.decode_cut_short_ending :
    ∃ cut e heap, endingProgram.encodeWith (fun _ => 0) endingHeap =
        .ok (cut ++ (checksumTag ++ Bytes.u32 0)) ∧
      checksumTag ++ Bytes.u32 0 <:+ cut ∧
      Program.decodeWith (fun _ => 0) {} cut.toArray {} = .error e heap := by
  have hencoded : ∃ bytes, endingProgram.encodeWith (fun _ => 0) endingHeap = .ok bytes := ⟨_, rfl⟩
  obtain ⟨bytes, hbytes⟩ := hencoded
  obtain ⟨main, constants, hmain, hconstants, rfl⟩ := Program.eq_sections_of_encodeWith hbytes
  obtain ⟨e, heap, herror⟩ := Program.decode_cut_short hbytes endingProgram_framed (List.prefix_append _ _)
    (by simp [checksumTag]) (fun _ => 0) {} {}
  refine ⟨_, e, heap, hbytes, ?_, herror⟩
  obtain rfl := Except.ok.inj hconstants
  refine ⟨Decode.front ++ Encode.sectionOf fileTag (Encode.files {}) ++
    Encode.sectionOf mainTag main ++ (constantsTag ++ Bytes.u32 17 ++ Bytes.u32 1 ++
      tag .bytes ++ Bytes.u32 8), ?_⟩
  simp only [Program.sections, List.append_assoc]
  rfl

end ScriptEngine
