import ScriptEngine.Proofs.Storage.Truncated
/-!
# Stored programs differ as the programs do

What was written can be told apart from what follows it, so equal bytes come from equal things. Main
statement: two programs are stored as the same bytes just when they are the same program.
-/

namespace ScriptEngine

open Encode Bytes Value Program

variable {a : Addr} {bytes bytes' r r' rest rest' : List UInt8}

/-! ### What was written ends where it ends -/

/-- A loader that loads both of two beginnings of the same bytes has loaded the same thing. -/
theorem Loader.Loads.unique {l : Loader α} {a a' : α}
    {h h1 h2 : Heap} (hl : l.Loads bytes h a h1) (hl' : l.Loads bytes' h a' h2)
    (heq : bytes ++ rest = bytes' ++ rest') : a = a' ∧ rest = rest' := by
  let c : Cursor := { data := (bytes ++ rest).toArray }
  have hresult := (hl c rest rfl).symm.trans (hl' c rest' heq)
  injection hresult with hpair
  injection hpair with hvalue hcursor
  have hlength : bytes.length = bytes'.length := by
    simpa [Cursor.skip] using congrArg Cursor.offset hcursor
  exact ⟨hvalue, (List.append_inj heq hlength).2⟩

theorem Reader.Reads.unique {r : Reader α} {a a' : α} (h : r.Reads bytes a) (h' : r.Reads bytes' a')
    (heq : bytes ++ rest = bytes' ++ rest') : a = a' ∧ rest = rest' :=
  (Loader.loads_read h {}).unique (Loader.loads_read h' {}) heq

/-- Bytes of items in turn, as many on both sides, come from related items if those of one item do. -/
theorem Encode.each_unique {item : α → Except ProgramError (List UInt8)} {R : α → α → Prop}
    {xs ys : List α} (hlength : xs.length = ys.length)
    (hitem : ∀ x ∈ xs, ∀ y ∈ ys, ∀ b b' r r', item x = .ok b → item y = .ok b' → b ++ r = b' ++ r' →
      R x y ∧ r = r') (hxs : each item xs = .ok bytes) (hys : each item ys = .ok bytes')
    (heq : bytes ++ rest = bytes' ++ rest') : List.Forall₂ R xs ys ∧ rest = rest' := by
  induction xs generalizing ys bytes bytes' with
  | nil =>
    obtain rfl := List.length_eq_zero_iff.1 hlength.symm
    cases hxs
    cases hys
    exact ⟨.nil, heq⟩
  | cons x xs ih =>
    cases ys with
    | nil => cases hlength
    | cons y ys =>
      obtain ⟨b, more, hb, hmore, rfl⟩ := each_cons_eq_ok.1 hxs
      obtain ⟨b', more', hb', hmore', rfl⟩ := each_cons_eq_ok.1 hys
      rw [List.append_assoc, List.append_assoc] at heq
      obtain ⟨hR, htail⟩ := hitem x (by simp) y (by simp) b b' _ _ hb hb' heq
      obtain ⟨hRs, hrest⟩ := ih (by simpa using hlength)
        (fun u hu v hv => hitem u (by simp [hu]) v (by simp [hv])) hmore hmore' htail
      exact ⟨.cons hR hRs, hrest⟩

theorem Encode.each_flatMap (write : α → List UInt8) (xs : List α) :
    each (fun x => .ok (write x)) xs = .ok (xs.flatMap write) := by
  induction xs with
  | nil => rfl
  | cons x xs ih => exact each_cons_eq_ok.2 ⟨write x, xs.flatMap write, rfl, ih, List.flatMap_cons⟩

theorem flatMap_unique {write : α → List UInt8} {xs ys : List α} (hlength : xs.length = ys.length)
    (hwrite : ∀ x ∈ xs, ∀ y ∈ ys, ∀ r r', write x ++ r = write y ++ r' → x = y ∧ r = r')
    (heq : xs.flatMap write ++ rest = ys.flatMap write ++ rest') : xs = ys ∧ rest = rest' := by
  rw [← List.forall₂_eq_eq_eq]
  refine each_unique hlength ?_ (each_flatMap write xs) (each_flatMap write ys) heq
  intro x hx y hy b b' r r' hb hb' h
  cases hb
  cases hb'
  exact hwrite x hx y hy r r' h

theorem u32_unique {m n : Nat} (hm : m < capacity 4) (hn : n < capacity 4)
    (h : u32 m ++ rest = u32 n ++ rest') : m = n ∧ rest = rest' :=
  (Reader.reads_u32 hm).unique (Reader.reads_u32 hn) h

theorem text_unique {s t : String} (hs : (ofString s).length < capacity 4)
    (ht : (ofString t).length < capacity 4) (h : text s ++ rest = text t ++ rest') : s = t ∧ rest = rest' :=
  (Reader.reads_text hs).unique (Reader.reads_text ht) h

theorem blob_unique {xs ys : List UInt8} (hx : xs.length < capacity 4)
    (hy : ys.length < capacity 4) (h : blob xs ++ rest = blob ys ++ rest') : xs = ys ∧ rest = rest' := by
  obtain ⟨heq, hrest⟩ := (Reader.reads_blob xs hx).unique (Reader.reads_blob ys hy) h
  exact ⟨by simpa using heq, hrest⟩

theorem flag_unique {b c : Bool} (h : u8 b.toNat ++ rest = u8 c.toNat ++ rest') : b = c ∧ rest = rest' := by
  have hfit : ∀ b : Bool, b.toNat < capacity 1 := by decide
  obtain ⟨hcode, hrest⟩ := (Reader.reads_u8 (hfit b)).unique (Reader.reads_u8 (hfit c)) h
  refine ⟨?_, hrest⟩
  revert hcode
  cases b <;> cases c <;> decide

theorem time_unique {t u : Instant}
    (ht : Instant.ofUnix? t.seconds t.nanos = some t) (hu : Instant.ofUnix? u.seconds u.nanos = some u)
    (h : i64 (Int64.ofInt t.seconds) ++ u32 t.nanos ++ rest = i64 (Int64.ofInt u.seconds) ++ u32 u.nanos ++ rest') :
    t = u ∧ rest = rest' := by
  obtain ⟨htop, hlow, hnanos⟩ := Instant.range_of_ofUnix? ht
  obtain ⟨htop', hlow', hnanos'⟩ := Instant.range_of_ofUnix? hu
  obtain ⟨hseconds, h⟩ := (Reader.reads_i64 _).unique (Reader.reads_i64 _) h
  obtain ⟨hparts, hrest⟩ := u32_unique hnanos hnanos' h
  have hint := congrArg Int64.toInt hseconds
  rw [Int64.toInt_ofInt_of_le (by simpa using hlow) (by simpa using htop),
    Int64.toInt_ofInt_of_le (by simpa using hlow') (by simpa using htop')] at hint
  exact ⟨congrArg₂ Instant.mk hint hparts, hrest⟩

theorem tag_unique {t u : ValueTag} (h : tag t ++ rest = tag u ++ rest') : t = u ∧ rest = rest' := by
  have hfit : ∀ t : ValueTag, t.code < capacity 1 := by
    intro t
    cases t <;> decide
  obtain ⟨hcode, hrest⟩ := (Reader.reads_u8 (hfit t)).unique (Reader.reads_u8 (hfit u)) h
  have htag := congrArg ValueTag.ofCode? hcode
  rw [ValueTag.ofCode?_code, ValueTag.ofCode?_code] at htag
  exact ⟨Option.some.inj htag, hrest⟩

/-! ### Functions -/

/-- The numbers of a function fit into four bytes. -/
structure Function.Fits (f : Function) : Prop where
  code : f.code.size < capacity 4
  locals : f.locals < capacity 4
  parameters : f.parameters < capacity 4
  positions : f.positions.entries.size < capacity 4
  entries : ∀ e ∈ f.positions.entries.toList, e.1 < capacity 4 ∧ e.2 < capacity 4

theorem Encode.function_unique {f g : Function} (hf : f.Fits)
    (hg : g.Fits) (hbytes : Encode.function f = .ok bytes) (hbytes' : Encode.function g = .ok bytes')
    (heq : bytes ++ rest = bytes' ++ rest') : sameFunction f g = true ∧ rest = rest' := by
  obtain ⟨hfcaptured, rfl⟩ := function_eq_ok.1 hbytes
  obtain ⟨hgcaptured, rfl⟩ := function_eq_ok.1 hbytes'
  simp only [List.append_assoc] at heq
  obtain ⟨hcode, heq⟩ := blob_unique (by simpa using hf.code) (by simpa using hg.code) heq
  obtain ⟨hlocals, heq⟩ := u32_unique hf.locals hg.locals heq
  obtain ⟨hparameters, heq⟩ := u32_unique hf.parameters hg.parameters heq
  obtain ⟨hvariadic, heq⟩ := flag_unique heq
  obtain ⟨hcount, heq⟩ := u32_unique hf.positions hg.positions heq
  obtain ⟨hentries, hrest⟩ := flatMap_unique (by simpa using hcount) (fun x hx y hy r r' h => by
    obtain ⟨hoffset, h⟩ := u32_unique (hf.entries x hx).1 (hg.entries y hy).1 h
    obtain ⟨hpos, h⟩ := u32_unique (hf.entries x hx).2 (hg.entries y hy).2 h
    exact ⟨Prod.ext hoffset hpos, h⟩) heq
  refine ⟨sameFunction_iff.2 ⟨by simpa using hcode, hlocals, hparameters, hvariadic, ?_, ?_⟩, hrest⟩
  · exact congrArg PositionTable.mk (by simpa using hentries)
  · rw [hfcaptured, hgcaptured]

/-! ### Values -/

/-- The number of entries and the sizes of the keys fit into four bytes. -/
structure Dict.Fits (d : Dict Value) : Prop where
  count : d.size < capacity 4
  keys : ∀ e ∈ d.entries, (ofString e.1).length < capacity 4

/-- The counts and sizes of a value fit into four bytes, not counting those of its parts, and a time is
one that the calendar has. -/
def Value.Fits (h : Heap) : Value → Prop
  | .string s => (ofString s).length < capacity 4
  | .bytes a => (h.buffer a).size < capacity 4
  | .array a | .frozenArray a => (h.array a).size < capacity 4
  | .map a | .frozenMap a => (h.map a).Fits
  | .time t => Instant.ofUnix? t.seconds t.nanos = some t
  | .native f => (ofString f.name).length < capacity 4
  | .function f => f.Fits
  | .undefined | .int _ | .float _ | .char _ | .bool _ | .error _ | .iterator _ _ => True

/-- Everything inside a value fits. -/
def Value.AllFit (h : Heap) (v : Value) : Prop := ∀ x, Value.Inside h x v → x.Fits h

/-! ### Bytes of values and contents of values -/

section

variable {h : Heap} {n : Nat} {v w : Value}

theorem Value.AllFit.self (hv : v.AllFit h) : v.Fits h := hv v .self

theorem Value.AllFit.part (hv : v.AllFit h) {x : Value} (hx : x ∈ v.parts h) : x.AllFit h :=
  fun y hy => hv y (.part hx hy)

theorem Value.allFit_of_parts (hself : v.Fits h) (hparts : ∀ x ∈ v.parts h, x.AllFit h) : v.AllFit h := by
  intro x hx
  cases hx with
  | self => exact hself
  | part hy hx => exact hparts _ hy x hx

theorem Encode.entries_unique {item : Value → Except ProgramError (List UInt8)} {R : Value → Value → Prop}
    {d d' : Dict Value} (hd : d.Fits) (hd' : d'.Fits)
    (hitem : ∀ e ∈ d.entries, ∀ e' ∈ d'.entries, ∀ b b' r r', item e.2 = .ok b → item e'.2 = .ok b' →
      b ++ r = b' ++ r' → R e.2 e'.2 ∧ r = r')
    (hb : entries item d = .ok bytes) (hb' : entries item d' = .ok bytes') (heq : bytes ++ rest = bytes' ++ rest') :
    List.Forall₂ (fun e e' => e.1 = e'.1 ∧ R e.2 e'.2) d.entries d'.entries ∧ rest = rest' := by
  obtain ⟨b, heach, rfl⟩ := entries_eq_ok.1 hb
  obtain ⟨b', heach', rfl⟩ := entries_eq_ok.1 hb'
  obtain ⟨hsize, heq⟩ := u32_unique hd.count hd'.count heq
  refine each_unique hsize ?_ heach heach' heq
  intro e he e' he' c c' r r' hc hc' h
  obtain ⟨inner, hinner, hc⟩ := exists_of_bind_eq_ok hc
  obtain ⟨inner', hinner', hc'⟩ := exists_of_bind_eq_ok hc'
  cases hc
  cases hc'
  rw [List.append_assoc, List.append_assoc] at h
  obtain ⟨hkey, h⟩ := text_unique (hd.keys e he) (hd'.keys e' he') h
  obtain ⟨hvalue, hr⟩ := hitem e he e' he' inner inner' r r' hinner hinner' h
  exact ⟨⟨hkey, hvalue⟩, hr⟩

/-- The name of a module is one of its attributes. -/
theorem Value.AllFit.moduleName {name : String} (hv : (frozenMap a).AllFit h)
    (hname : moduleName? h (.frozenMap a) = some name) : (ofString name).length < capacity 4 :=
  hv _ (.part (List.mem_map_of_mem (mem_of_moduleName? hname)) .self)

/-- The bytes of a value tell its content, whatever follows them. -/
def Separates (h : Heap) (n : Nat) (v : Value) : Prop :=
  v.AllFit h → ∀ w b b' r r', w.AllFit h → Encode.value h n v = .ok b → Encode.value h n w = .ok b' →
    b ++ r = b' ++ r' → sameContent h n v w = true ∧ r = r'

theorem separates_items {b : Addr} (hitems : ∀ v, Separates h n v)
    (hv : ∀ {x}, x ∈ (h.array a).toList → x.AllFit h) (hw : ∀ {x}, x ∈ (h.array b).toList → x.AllFit h)
    (ha : (h.array a).size < capacity 4) (hb : (h.array b).size < capacity 4)
    (hbytes : each (Encode.value h n) (h.array a).toList = .ok bytes)
    (hbytes' : each (Encode.value h n) (h.array b).toList = .ok bytes')
    (heq : u32 (h.array a).size ++ bytes ++ r = u32 (h.array b).size ++ bytes' ++ r') :
    List.Forall₂ (sameContent h n · · = true) (h.array a).toList (h.array b).toList ∧ r = r' := by
  obtain ⟨hsize, heq⟩ := u32_unique ha hb heq
  exact each_unique (by simpa using hsize)
    (fun x hx y hy c c' s s' => hitems x (hv hx) y c c' s s' (hw hy)) hbytes hbytes' heq

theorem separates_entries {b : Addr} (hitems : ∀ v, Separates h n v)
    (hv : ∀ {x}, x ∈ (h.map a).values → x.AllFit h) (hw : ∀ {x}, x ∈ (h.map b).values → x.AllFit h)
    (ha : (h.map a).Fits) (hb : (h.map b).Fits) (hbytes : entries (Encode.value h n) (h.map a) = .ok bytes)
    (hbytes' : entries (Encode.value h n) (h.map b) = .ok bytes') (heq : bytes ++ r = bytes' ++ r') :
    List.Forall₂ (fun e e' => e.1 = e'.1 ∧ sameContent h n e.2 e'.2 = true) (h.map a).entries
      (h.map b).entries ∧ r = r' :=
  entries_unique (R := (sameContent h n · · = true)) ha hb (fun e he e' he' c c' s s' =>
    hitems e.2 (hv (List.mem_map_of_mem he)) e'.2 c c' s s' (hw (List.mem_map_of_mem he'))) hbytes hbytes' heq

/-- Two values of one kind with the same bytes behind the tag have the same content. -/
theorem Form.unique {t : ValueTag} {b b' : List UInt8} (hitems : ∀ m, n = m + 1 → ∀ v, Separates h m v)
    (herror : ∀ x, v = .error x → Separates h n x) (hv : v.AllFit h) (hw : w.AllFit h) (hform : Form h n v t b)
    (hform' : Form h n w t b') (heq : b ++ r = b' ++ r') : Same h n v w ∧ r = r' := by
  cases hform with
  | undefined =>
    cases hform'
    exact ⟨.undefined, heq⟩
  | int i =>
    cases hform' with
    | int j =>
      obtain ⟨rfl, hrest⟩ := (Reader.reads_i64 i).unique (Reader.reads_i64 j) heq
      exact ⟨.int i, hrest⟩
  | float x =>
    cases hform' with
    | float y =>
      obtain ⟨rfl, hrest⟩ := (Reader.reads_f64 x).unique (Reader.reads_f64 y) heq
      exact ⟨.float rfl, hrest⟩
  | char c =>
    cases hform' with
    | char d =>
      have hfit : ∀ c : Char, c.toNat < capacity 4 := fun c => c.val.toNat_lt
      obtain ⟨hcode, hrest⟩ := u32_unique (hfit c) (hfit d) heq
      obtain rfl := Char.toNat_inj.1 hcode
      exact ⟨.char c, hrest⟩
  | bool c =>
    cases hform' with
    | bool d =>
      obtain ⟨rfl, hrest⟩ := flag_unique heq
      exact ⟨.bool c, hrest⟩
  | string s =>
    cases hform' with
    | string s' =>
      obtain ⟨rfl, hrest⟩ := text_unique hv.self hw.self heq
      exact ⟨.string s, hrest⟩
  | bytes a =>
    cases hform' with
    | bytes a' =>
      have hfit : ∀ a, (Value.bytes a).AllFit h → (h.buffer a).toList.length < capacity 4 := fun a ha => by
        simpa using show (h.buffer a).size < capacity 4 from ha.self
      obtain ⟨hblob, hrest⟩ := blob_unique (hfit a hv) (hfit a' hw) heq
      exact ⟨.bytes (Array.toList_inj.1 hblob), hrest⟩
  | time t =>
    cases hform' with
    | time u =>
      obtain ⟨rfl, hrest⟩ := time_unique hv.self hw.self heq
      exact ⟨.time t, hrest⟩
  | native f =>
    cases hform' with
    | native g => exact (text_unique hv.self hw.self heq).imp_left .native
  | function hb =>
    cases hform' with
    | function hb' => exact (function_unique hv.self hw.self hb hb' heq).imp_left .function
  | error hb =>
    cases hform' with
    | error hb' =>
      have hsame := herror _ rfl (hv.part (by simp [parts])) _ _ _ r r' (hw.part (by simp [parts])) hb hb' heq
      exact hsame.imp_left .error
  | array hb =>
    cases hform' with
    | array hb' => exact (separates_items (hitems _ rfl) hv.part hw.part hv.self hw.self hb hb' heq).imp_left .array
  | frozenArray hb =>
    cases hform' with
    | frozenArray hb' =>
      exact (separates_items (hitems _ rfl) hv.part hw.part hv.self hw.self hb hb' heq).imp_left .frozenArray
  | map hb =>
    cases hform' with
    | map hb' => exact (separates_entries (hitems _ rfl) hv.part hw.part hv.self hw.self hb hb' heq).imp_left .map
  | frozenMap hname hb =>
    cases hform' with
    | frozenMap hname' hb' =>
      exact (separates_entries (hitems _ rfl) hv.part hw.part hv.self hw.self hb hb' heq).imp_left .frozenMap
  | module hname hb =>
    cases hform' with
    | module hname' hb' =>
      rw [List.append_assoc, List.append_assoc] at heq
      obtain ⟨-, heq⟩ := text_unique (hv.moduleName hname) (hw.moduleName hname') heq
      exact (separates_entries (hitems _ rfl) hv.part hw.part hv.self hw.self hb hb' heq).imp_left .frozenMap

/-- One level of a value: equal bytes have equal tags. -/
theorem separates_step (hitems : ∀ m, n = m + 1 → ∀ v, Separates h m v)
    (herror : ∀ x, v = .error x → Separates h n x) : Separates h n v := by
  intro hv w bytes bytes' r r' hw hbytes hbytes' heq
  obtain ⟨t, b, hform, rfl⟩ := Form.of_value hbytes
  obtain ⟨t', b', hform', rfl⟩ := Form.of_value hbytes'
  obtain ⟨htag, hrest⟩ := tag_unique heq
  subst htag
  exact (hform.unique hitems herror hv hw hform' hrest).imp_left Same.content

theorem separates (h : Heap) (n : Nat) (v : Value) : Separates h n v :=
  level_induction (fun _ _ => separates_step) n v

end

/-! ### Programs -/

/-- The counts, sizes and offsets in a program fit into four bytes. -/
structure Program.Fits (p : Program) (h : Heap) : Prop where
  files : p.files.Storable
  main : p.main.Fits
  count : p.constants.size < capacity 4
  constants : ∀ c ∈ p.constants, c.AllFit h

theorem sectionOf_unique {t xs ys : List UInt8}
    (h : sectionOf t xs ++ rest = sectionOf t ys ++ rest') : xs ++ rest = ys ++ rest' := by
  simp only [sectionOf, blob, List.append_assoc] at h
  have hblob := List.append_cancel_left h
  exact (List.append_inj hblob (by rw [Decode.length_u32, Decode.length_u32])).2

/-- Equal sections are those of the same program. -/
theorem Program.same_of_sections {p q : Program} {h : Heap} {main main' constants constants' : List UInt8}
    (hp : p.Fits h) (hq : q.Fits h) (hmain : Encode.function p.main = .ok main)
    (hmain' : Encode.function q.main = .ok main')
    (hconstants : each (Encode.value h h.depth) p.constants.toList = .ok constants)
    (hconstants' : each (Encode.value h h.depth) q.constants.toList = .ok constants')
    (heq : p.sections main constants ++ rest = q.sections main' constants' ++ rest') : p.same q h = true := by
  simp only [sections, List.append_assoc] at heq
  obtain ⟨hfiles, heq⟩ := (Loader.loads_files hp.files {}).unique (Loader.loads_files hq.files {})
    (sectionOf_unique heq)
  obtain ⟨hsame, heq⟩ := function_unique hp.main hq.main hmain hmain' (sectionOf_unique heq)
  have hsection := sectionOf_unique heq
  obtain ⟨hcount, heq⟩ := u32_unique hp.count hq.count hsection
  obtain ⟨hitems, -⟩ := each_unique (by simpa using hcount)
    (fun x hx y hy b b' r r' => separates h h.depth x (hp.constants x (by simpa using hx)) y b b' r r'
      (hq.constants y (by simpa using hy))) hconstants hconstants' heq
  simp only [same, hfiles, hsame, Equality.sameItems_iff.2 hitems, beq_self_eq_true, Bool.and_self]

/-- A heap with two arrays of one content, each with a module of its own inside an error. -/
def twinHeap : Heap where
  arrays := #[#[.error (.frozenMap 0), .string "text"], #[.error (.frozenMap 1), .string "text"]]
  maps := Array.replicate 2 (Dict.ofList [(moduleNameKey, .string "m"), ("f", .native (.host "f"))])

/-- A program with one of the arrays as its constant. -/
def twinProgram (a : Addr) : Program where
  main := { code := (Instruction.encode .suspend []).toArray }
  constants := #[.array a]

theorem twinHeap_allFit (ha : a < 2) : (array a).AllFit twinHeap := by
  have hname : (string "m").AllFit twinHeap := allFit_of_parts (show _ < _ by decide) nofun
  have hnative : (native (.host "f")).AllFit twinHeap := allFit_of_parts (show _ < _ by decide) nofun
  have htext : (string "text").AllFit twinHeap := allFit_of_parts (show _ < _ by decide) nofun
  have hmodule : (frozenMap a).AllFit twinHeap := by
    refine allFit_of_parts ⟨?_, ?_⟩ ?_
    · interval_cases a <;> decide
    · interval_cases a <;> exact forall_mem_pair (by decide) (by decide)
    · interval_cases a <;> exact forall_mem_pair hname hnative
  have herror : (error (.frozenMap a)).AllFit twinHeap :=
    allFit_of_parts trivial fun x hx => List.mem_singleton.1 hx ▸ hmodule
  refine allFit_of_parts ?_ ?_
  · interval_cases a <;> exact show _ < _ by decide
  · interval_cases a <;> exact forall_mem_pair herror htext

theorem twinProgram_fits (ha : a < 2) : (twinProgram a).Fits twinHeap := by
  refine ⟨⟨?_, ?_, nofun⟩, ⟨?_, ?_, ?_, ?_, nofun⟩, ?_, fun c hc => ?_⟩
  case refine_8 =>
    obtain rfl : c = .array a := by simpa [twinProgram] using hc
    exact twinHeap_allFit ha
  all_goals interval_cases a <;> decide

end ScriptEngine
