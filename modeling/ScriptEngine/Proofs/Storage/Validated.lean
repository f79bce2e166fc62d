import ScriptEngine.Proofs.Storage.RoundTrip
/-!
# References in loaded programs

A function is in range when its code is a sequence of whole instructions that refer to constants and
builtins which are there. Validation accepts exactly the programs whose main function and whose
constants that are functions are in range. Main statement: a function that occurs in a loaded program
is in range, unless it stands inside an array, a map or an error among the constants. The program at
the end shows that such a function need not be in range.
-/

namespace ScriptEngine

/-- The code is a sequence of whole instructions, and what these refer to is there. -/
structure Function.InRange (f : Function) (constants : Nat) : Prop where
  whole : (walk f.code).fault = none
  constants : ∀ i ∈ (walk f.code).instructions, i.op.takesConstant = true → i.first < constants
  builtins : ∀ i ∈ (walk f.code).instructions, i.op = .getBuiltin → i.first < Builtin.all.size

/-! ### Where functions occur -/

/-- The values that a value directly consists of. -/
def Value.parts (h : Heap) : Value → List Value
  | .error v => [v]
  | .array a | .frozenArray a => (h.array a).toList
  | .map a | .frozenMap a => (h.map a).values
  | _ => []

/-- A value is another one or stands inside it, at any depth. -/
inductive Value.Inside (h : Heap) (w : Value) : Value → Prop where
  | self : Inside h w w
  | part {x v : Value} (hx : x ∈ v.parts h) (hw : Inside h w x) : Inside h w v

namespace Program

variable {p : Program} {h : Heap} {f : Function}

/-- The function is the main function, a constant or inside of one. -/
def Occurs (p : Program) (h : Heap) (f : Function) : Prop :=
  f = p.main ∨ ∃ c ∈ p.constants, Value.Inside h (.function f) c

/-- The function stands inside an array, a map or an error among the constants. -/
def Nests (p : Program) (h : Heap) (f : Function) : Prop :=
  ∃ c ∈ p.constants, ∃ x ∈ c.parts h, Value.Inside h (.function f) x

theorem mem_functions_iff : f ∈ p.functions ↔ .function f ∈ p.constants := by
  rw [functions, List.mem_filterMap]
  constructor
  · rintro ⟨c, hc, hf⟩
    cases c with
    | function g =>
      cases hf
      exact Array.mem_toList_iff.1 hc
    | _ => cases hf
  · intro hf
    exact ⟨.function f, Array.mem_toList_iff.2 hf, rfl⟩

theorem Occurs.listed_or_nests (hf : p.Occurs h f) : f ∈ p.main :: p.functions ∨ p.Nests h f := by
  rcases hf with rfl | ⟨c, hc, hinside⟩
  · exact .inl (List.mem_cons_self ..)
  · cases hinside with
    | self => exact .inl (List.mem_cons_of_mem _ (mem_functions_iff.2 hc))
    | part hx hw => exact .inr ⟨c, hc, _, hx, hw⟩

/-! ### Validation -/

theorem checkInstruction_eq_ok_iff {n : Nat} {i : Instruction} :
    checkInstruction n i = .ok () ↔
      (i.op.takesConstant = true → i.first < n) ∧ (i.op = .getBuiltin → i.first < Builtin.all.size) := by
  rw [checkInstruction]
  split
  · rename_i hconstant
    simp only [Bool.and_eq_true, decide_eq_true_eq] at hconstant
    simp [hconstant.1, Nat.not_lt.2 hconstant.2]
  · rename_i hconstant
    simp only [Bool.and_eq_true, decide_eq_true_eq, not_and, Nat.not_le] at hconstant
    split
    · rename_i hbuiltin
      simp only [Bool.and_eq_true, beq_iff_eq, decide_eq_true_eq] at hbuiltin
      simp [hbuiltin.1, Nat.not_lt.2 hbuiltin.2]
    · rename_i hbuiltin
      simp only [Bool.and_eq_true, beq_iff_eq, decide_eq_true_eq, not_and, Nat.not_le] at hbuiltin
      simpa using ⟨hconstant, hbuiltin⟩

/-- Two checks in turn both pass. -/
theorem bind_eq_ok_iff {x : Except ProgramError Unit} {y : Except ProgramError Unit} :
    (x >>= fun _ => y) = .ok () ↔ x = .ok () ∧ y = .ok () := by
  cases x with
  | error e | ok u => simp [bind, Except.bind]

theorem checkInstructions_eq_ok_iff {n : Nat} {is : List Instruction} :
    checkInstructions n is = .ok () ↔ ∀ i ∈ is, checkInstruction n i = .ok () := by
  induction is with
  | nil => simp [checkInstructions]
  | cons i rest ih => rw [checkInstructions, bind_eq_ok_iff, ih, List.forall_mem_cons]

theorem checkCode_eq_ok_iff {n : Nat} : checkCode n f.code = .ok () ↔ f.InRange n := by
  rw [checkCode, bind_eq_ok_iff, checkInstructions_eq_ok_iff]
  simp only [Array.mem_toList_iff, checkInstruction_eq_ok_iff]
  cases hwalk : (walk f.code).fault with
  | some fault =>
    refine iff_of_false (fun hok => by cases hok.2) fun hf => ?_
    cases hwalk.symm.trans hf.whole
  | none =>
    exact ⟨fun hok => ⟨hwalk, fun i hi => (hok.1 i hi).1, fun i hi => (hok.1 i hi).2⟩,
      fun hf => ⟨fun i hi => ⟨hf.constants i hi, hf.builtins i hi⟩, rfl⟩⟩

theorem checkCodes_eq_ok_iff {n : Nat} {codes : List (Array UInt8)} :
    checkCodes n codes = .ok () ↔ ∀ code ∈ codes, checkCode n code = .ok () := by
  induction codes with
  | nil => simp [checkCodes]
  | cons code rest ih => rw [checkCodes, bind_eq_ok_iff, ih, List.forall_mem_cons]

/-- Validation looks at the main function and at the constants that are functions. -/
theorem validate_eq_ok_iff : p.validate = .ok () ↔ ∀ f ∈ p.main :: p.functions, f.InRange p.constants.size := by
  rw [validate, checkCodes_eq_ok_iff, ← List.map_cons]
  simp only [List.forall_mem_map, checkCode_eq_ok_iff]

/-! ### Loading -/

theorem exists_of_bind_eq_ok {x : LoadM α} {k : α → LoadM β} {h h' : Heap} {b : β}
    (hok : (x >>= k) h = .ok b h') : ∃ a h1, x h = .ok a h1 ∧ k a h1 = .ok b h' := by
  have hbind : EStateM.bind x k h = .ok b h' := hok
  rw [EStateM.bind] at hbind
  cases hx : x h with
  | ok a h1 => exact ⟨a, h1, rfl, by rwa [hx] at hbind⟩
  | error e h1 =>
    rw [hx] at hbind
    cases hbind

/-- A program is validated before it is handed out. -/
theorem validate_of_decodeWith {checksum : Array UInt8 → UInt32} {modules : ModuleTable} {data : Array UInt8}
    {h h' : Heap} (hload : decodeWith checksum modules data h = .ok p h') : p.validate = .ok () := by
  obtain ⟨start, _, -, hload⟩ := exists_of_bind_eq_ok hload
  obtain ⟨bytes, _, -, hload⟩ := exists_of_bind_eq_ok hload
  obtain ⟨found, _, -, hload⟩ := exists_of_bind_eq_ok hload
  obtain ⟨files, _, -, hload⟩ := exists_of_bind_eq_ok hload
  obtain ⟨main, _, -, hload⟩ := exists_of_bind_eq_ok hload
  obtain ⟨constants, _, -, hload⟩ := exists_of_bind_eq_ok hload
  obtain ⟨⟨⟩, _, hvalid, hload⟩ := exists_of_bind_eq_ok hload
  cases hload
  cases hp : validate { files, main, constants } with
  | ok u => rfl
  | error e =>
    rw [hp] at hvalid
    cases hvalid

/-- In a loaded program, the main function and the constants that are functions are in range, and a
function elsewhere stands inside an array, a map or an error. -/
theorem inRange_of_decode (modules : ModuleTable) (data : Array UInt8) (h h' : Heap) (p : Program)
    (hload : decode modules data h = .ok p h') :
    (∀ f ∈ p.main :: p.functions, f.InRange p.constants.size) ∧
      ∀ f, p.Occurs h' f → f.InRange p.constants.size ∨ p.Nests h' f := by
  have hlisted := validate_eq_ok_iff.1 (validate_of_decodeWith hload)
  exact ⟨hlisted, fun f hf => hf.listed_or_nests.imp_left (hlisted f)⟩

/-! ### A function inside an array -/

/-- A function that loads one constant, as it is loaded. -/
def loading (id : Nat) (constant : UInt8) : Function := { id, code := #[Opcode.const.byte, 0, constant] }

/-- A program with two constants: a function, and an array that holds another one. -/
def nesting : Program where
  files := { base := 1 }
  main := { code := #[Opcode.suspend.byte] }
  constants := #[.function (loading 1 1), .array 0]

/-- The heap with that array. The function in it refers to constant 9, which is not there. -/
def nestingHeap : Heap where
  arrays := #[#[.function (loading 2 9)]]
  functions := 3

/-- The sections of the stored program. -/
def nestingSections : List UInt8 :=
  Encode.sectionOf Stored.fileTag (Bytes.u32 1 ++ Bytes.u32 0) ++
    Encode.sectionOf Stored.mainTag (Bytes.blob [Opcode.suspend.byte] ++ List.replicate 13 0) ++
    Encode.sectionOf Stored.constantsTag (Bytes.u32 2 ++
      (Encode.tag .function ++ Bytes.blob [Opcode.const.byte, 0, 1] ++ List.replicate 13 0) ++
      (Encode.tag .array ++ Bytes.u32 1 ++
        (Encode.tag .function ++ Bytes.blob [Opcode.const.byte, 0, 9] ++ List.replicate 13 0)))

/-- The bytes of the stored program. -/
def nestingBytes : List UInt8 :=
  Decode.front ++ nestingSections ++ Stored.checksumTag ++
    Bytes.u32 (Checksum.crc32 (Decode.front ++ nestingSections).toArray).toNat

theorem decode_nestingBytes : decode {} nestingBytes.toArray {} = .ok nesting nestingHeap := by
  rw [decode, nestingBytes, decodeWith_stored]
  cbv

theorem inRange_of_decode_nesting :
    decode {} nestingBytes.toArray {} = .ok nesting nestingHeap ∧ (loading 1 1).InRange 2 :=
  ⟨decode_nestingBytes,
    (inRange_of_decode {} _ {} nestingHeap nesting decode_nestingBytes).1 (loading 1 1) (by simp [functions, nesting])⟩

/-- A function inside an array that refers to a missing constant is loaded. -/
theorem decode_accepts_nested_out_of_range :
    ∃ p h' f, decode {} nestingBytes.toArray {} = .ok p h' ∧ p.Occurs h' f ∧ ¬ f.InRange p.constants.size := by
  refine ⟨nesting, nestingHeap, loading 2 9, decode_nestingBytes, ?_, fun hrange => ?_⟩
  · exact .inr ⟨.array 0, by simp [nesting], .part (x := .function (loading 2 9)) (by simp [Value.parts, nestingHeap,
      Heap.array]) .self⟩
  · have hwalk : (walk (loading 2 9).code).instructions = #[⟨0, .const, [9]⟩] := by cbv
    have hlt := hrange.constants ⟨0, .const, [9]⟩ (by simp [hwalk]) rfl
    exact absurd hlt (by decide)

end Program

end ScriptEngine
