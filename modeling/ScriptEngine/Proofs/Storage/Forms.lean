import ScriptEngine.Proofs.Storage.Values
import ScriptEngine.Proofs.Value.Bisimilarity
/-!
# Forms of stored values

The writer of values and the comparison of values are two recursions of their own: `Form` says once what a
value is stored as, and `Same` what the comparison accepts, each for one level of a value. Main statement: a
value, and so a program, is stored as every one with the same content is (`Program.encodeWith_of_same`).
-/

namespace ScriptEngine

open Encode Bytes Program

variable {g : Function} {h : Heap} {n : Nat} {v w : Value} {item : Value → Except ProgramError (List UInt8)}

variable {f : Function} {b bytes : List UInt8} {t : ValueTag}

/-! ### Items, entries and functions -/

theorem Encode.each_cons_eq_ok {item : α → Except ProgramError (List UInt8)} {x : α} {xs : List α} :
    each item (x :: xs) = .ok bytes ↔
      ∃ b more, item x = .ok b ∧ each item xs = .ok more ∧ bytes = b ++ more := by
  constructor
  · intro h
    obtain ⟨parts, hparts, hbytes⟩ := exists_of_bind_eq_ok h
    rw [List.mapM_cons] at hparts
    obtain ⟨b, hb, hparts⟩ := exists_of_bind_eq_ok hparts
    obtain ⟨more, hmore, hparts⟩ := exists_of_bind_eq_ok hparts
    cases hparts
    cases hbytes
    exact ⟨b, more.flatten, hb, by rw [each, hmore]; rfl, rfl⟩
  · rintro ⟨b, more, hb, hmore, rfl⟩
    obtain ⟨parts, hparts, hmore⟩ := exists_of_bind_eq_ok hmore
    cases hmore
    rw [each, List.mapM_cons, hb, hparts]
    rfl

/-- Items that are written alike are written alike in turn. -/
theorem Encode.each_congr {item : α → Except ProgramError (List UInt8)} {item' : β → Except ProgramError (List UInt8)}
    {xs : List α} {ys : List β} (h : List.Forall₂ (fun x y => ∀ b, item x = .ok b → item' y = .ok b) xs ys)
    (hxs : each item xs = .ok bytes) : each item' ys = .ok bytes := by
  induction h generalizing bytes with
  | nil => exact hxs
  | cons hxy _ ih =>
    obtain ⟨b, more, hb, hmore, rfl⟩ := each_cons_eq_ok.1 hxs
    exact each_cons_eq_ok.2 ⟨b, more, hxy b hb, ih hmore, rfl⟩

theorem Encode.after_eq_ok {x : Except ProgramError (List UInt8)} {head : List UInt8} :
    (do return head ++ (← x)) = Except.ok bytes ↔ ∃ b, x = .ok b ∧ bytes = head ++ b := by
  constructor
  · intro h
    obtain ⟨b, hb, hbytes⟩ := exists_of_bind_eq_ok h
    cases hbytes
    exact ⟨b, hb, rfl⟩
  · rintro ⟨b, rfl, rfl⟩
    rfl

theorem Encode.entries_eq_ok {d : Dict Value} : entries item d = .ok bytes ↔
    ∃ b, each (fun e => do return text e.1 ++ (← item e.2)) d.entries = .ok b ∧ bytes = u32 d.size ++ b :=
  after_eq_ok

theorem Encode.entries_congr {item' : Value → Except ProgramError (List UInt8)} {d d' : Dict Value}
    (h : List.Forall₂ (fun e e' => e.1 = e'.1 ∧ ∀ b, item e.2 = .ok b → item' e'.2 = .ok b) d.entries d'.entries)
    (hb : entries item d = .ok bytes) : entries item' d' = .ok bytes := by
  obtain ⟨b, heach, rfl⟩ := entries_eq_ok.1 hb
  refine entries_eq_ok.2 ⟨b, each_congr (h.imp ?_) heach, ?_⟩
  · rintro e e' ⟨hkey, hvalue⟩ c hc
    obtain ⟨inner, hinner, hc⟩ := exists_of_bind_eq_ok hc
    rw [hvalue inner hinner, ← hkey]
    exact hc
  · rw [Dict.size, Dict.size, h.length_eq]

theorem Encode.function_eq_ok :
    function f = .ok bytes ↔ f.captured = #[] ∧
      bytes = blob f.code.toList ++ (u32 f.locals ++ (u32 f.parameters ++ (u8 f.variadic.toNat ++
        (u32 f.positions.entries.size ++ f.positions.entries.toList.flatMap fun e => u32 e.1 ++ u32 e.2)))) := by
  rw [function]
  split
  · next hempty =>
    simp only [Array.isEmpty_iff] at hempty
    simp only [hempty, List.append_assoc, true_and, Except.ok.injEq]
    exact eq_comm
  · next hfull =>
    simp only [Array.isEmpty_iff] at hfull
    simp [hfull]

theorem Program.sameFunction_iff : sameFunction f g = true ↔ f.code = g.code ∧ f.locals = g.locals ∧
      f.parameters = g.parameters ∧ f.variadic = g.variadic ∧ f.positions = g.positions ∧
      f.captured.size = g.captured.size := by
  simp [sameFunction, and_assoc]

theorem Encode.function_of_same (h : sameFunction f g = true) (hbytes : function f = .ok bytes) :
    function g = .ok bytes := by
  obtain ⟨hcode, hlocals, hparameters, hvariadic, hpositions, hcaptured⟩ := sameFunction_iff.1 h
  obtain ⟨hempty, rfl⟩ := function_eq_ok.1 hbytes
  rw [hempty] at hcaptured
  refine function_eq_ok.2 ⟨Array.eq_empty_of_size_eq_zero hcaptured.symm, ?_⟩
  rw [hcode, hlocals, hparameters, hvariadic, hpositions]

/-! ### What values are stored as -/

/-- A value is stored as a tag and some bytes; what its parts are stored as is not looked into. -/
inductive Form (h : Heap) : Nat → Value → ValueTag → List UInt8 → Prop where
  | undefined {n : Nat} : Form h n .undefined .undefined []
  | int {n : Nat} (v : Int64) : Form h n (.int v) .int (i64 v)
  | float {n : Nat} (v : Float) : Form h n (.float v) .float (f64 v)
  | char {n : Nat} (c : Char) : Form h n (.char c) .char (u32 c.toNat)
  | bool {n : Nat} (b : Bool) : Form h n (.bool b) .bool (u8 b.toNat)
  | string {n : Nat} (s : String) : Form h n (.string s) .string (text s)
  | bytes {n : Nat} (a : Addr) : Form h n (.bytes a) .bytes (blob (h.buffer a).toList)
  | time {n : Nat} (t : Instant) :
    Form h n (.time t) .time (i64 (Int64.ofInt t.seconds) ++ u32 t.nanos)
  | native {n : Nat} (f : Native) : Form h n (.native f) .native (text f.name)
  | function {n : Nat} {f : Function} {b : List UInt8} (hb : function f = .ok b) :
    Form h n (.function f) .function b
  | error {n : Nat} {v : Value} {b : List UInt8} (hb : value h n v = .ok b) :
    Form h n (.error v) .error b
  | array {n : Nat} {a : Addr} {b : List UInt8}
    (hb : each (value h n) (h.array a).toList = .ok b) :
    Form h (n + 1) (.array a) .array (u32 (h.array a).size ++ b)
  | frozenArray {n : Nat} {a : Addr} {b : List UInt8}
    (hb : each (value h n) (h.array a).toList = .ok b) :
    Form h (n + 1) (.frozenArray a) .frozenArray (u32 (h.array a).size ++ b)
  | map {n : Nat} {a : Addr} {b : List UInt8} (hb : entries (value h n) (h.map a) = .ok b) :
    Form h (n + 1) (.map a) .map b
  | frozenMap {n : Nat} {a : Addr} {b : List UInt8} (hname : Value.moduleName? h (.frozenMap a) = none)
    (hb : entries (value h n) (h.map a) = .ok b) :
    Form h (n + 1) (.frozenMap a) .frozenMap b
  | module {n : Nat} {a : Addr} {b : List UInt8} {name : String}
    (hname : Value.moduleName? h (.frozenMap a) = some name)
    (hb : entries (value h n) (h.map a) = .ok b) :
    Form h (n + 1) (.frozenMap a) .module (text name ++ b)

section

theorem Encode.items_eq_ok {content : Array Value} :
    items item content = .ok bytes ↔ ∃ b, each item content.toList = .ok b ∧ bytes = u32 content.size ++ b :=
  after_eq_ok

/-- How a frozen map starts: as a module if it carries a name. -/
def Encode.frozenHead : Option String → List UInt8
  | some name => tag .module ++ text name
  | none => tag .frozenMap

/-- A container is stored with the fuel for its parts. -/
theorem Encode.value_container (h : Heap) (n : Nat) (a : Addr) :
    value h (n + 1) (.array a) = (tag .array ++ ·) <$> items (value h n) (h.array a) ∧
      value h (n + 1) (.frozenArray a) = (tag .frozenArray ++ ·) <$> items (value h n) (h.array a) ∧
      value h (n + 1) (.map a) = (tag .map ++ ·) <$> entries (value h n) (h.map a) ∧
      value h (n + 1) (.frozenMap a) =
        (frozenHead ((Value.frozenMap a).moduleName? h) ++ ·) <$> entries (value h n) (h.map a) := by
  refine ⟨?_, ?_, ?_, ?_⟩ <;> rw [value]
  · simp [Value.unwrap]
  · simp [Value.unwrap]
  · simp [Value.unwrap]
  · cases hname : (Value.frozenMap a).moduleName? h <;> simp [Value.unwrap, hname, frozenHead]

theorem Form.value_eq (hf : Form h n v t b) : value h n v = .ok (tag t ++ b) := by
  cases hf with
  | error hb =>
    rw [value_error, hb]
    rfl
  | array hb => rw [(value_container h _ _).1, items_eq_ok.2 ⟨_, hb, rfl⟩]; rfl
  | frozenArray hb => rw [(value_container h _ _).2.1, items_eq_ok.2 ⟨_, hb, rfl⟩]; rfl
  | map hb => rw [(value_container h _ _).2.2.1, hb]; rfl
  | frozenMap hname hb => rw [(value_container h _ _).2.2.2, hname, hb]; rfl
  | module hname hb =>
    rw [(value_container h _ _).2.2.2, hname, hb, ← List.append_assoc]
    rfl
  | function hb => exact value_of_atom (by rw [atom, hb]; rfl) n
  | time t => exact value_of_atom (by rw [atom, List.append_assoc]) n
  | _ => exact value_of_atom rfl n

theorem Form.of_eq (hf : Form h n v t b) (hv : value h n v = .ok bytes) :
    ∃ t b, Form h n v t b ∧ bytes = tag t ++ b :=
  ⟨t, b, hf, Except.ok.inj (hv.symm.trans hf.value_eq)⟩

theorem Form.of_value (hv : value h n v = .ok bytes) : ∃ t b, Form h n v t b ∧ bytes = tag t ++ b := by
  cases v with
  | undefined => exact Form.undefined.of_eq hv
  | int v => exact (Form.int v).of_eq hv
  | float v => exact (Form.float v).of_eq hv
  | char c => exact (Form.char c).of_eq hv
  | bool b => exact (Form.bool b).of_eq hv
  | string s => exact (Form.string s).of_eq hv
  | bytes a => exact (Form.bytes a).of_eq hv
  | time t => exact (Form.time t).of_eq hv
  | native f => exact (Form.native f).of_eq hv
  | function f =>
    cases hb : Encode.function f with
    | ok b => exact (Form.function hb).of_eq hv
    | error e =>
      simp [Value.unwrap, atom, hb, Except.map] at hv
  | error v =>
    rw [value_error] at hv
    obtain ⟨b, hb, rfl⟩ := exists_of_map_eq_ok hv
    exact ⟨_, b, .error hb, rfl⟩
  | iterator kind a =>
    simp [Value.unwrap, atom] at hv
  | array a | frozenArray a =>
    cases n with
    | zero => simp [value, Value.unwrap, atom] at hv
    | succ n =>
      simp only [(value_container h n a).1, (value_container h n a).2.1] at hv
      obtain ⟨body, hbody, rfl⟩ := exists_of_map_eq_ok hv
      obtain ⟨b, hb, rfl⟩ := items_eq_ok.1 hbody
      first | exact ⟨_, _, .array hb, rfl⟩ | exact ⟨_, _, .frozenArray hb, rfl⟩
  | map a =>
    cases n with
    | zero => simp [value, Value.unwrap, atom] at hv
    | succ n =>
      rw [(value_container h n a).2.2.1] at hv
      obtain ⟨body, hbody, rfl⟩ := exists_of_map_eq_ok hv
      exact ⟨_, _, .map hbody, rfl⟩
  | frozenMap a =>
    cases n with
    | zero => simp [value, Value.unwrap, atom] at hv
    | succ n =>
      rw [(value_container h n a).2.2.2] at hv
      obtain ⟨body, hbody, rfl⟩ := exists_of_map_eq_ok hv
      cases hname : (Value.frozenMap a).moduleName? h with
      | none => exact ⟨_, _, .frozenMap hname hbody, rfl⟩
      | some name => exact ⟨_, _, .module hname hbody, List.append_assoc ..⟩

end

/-! ### Contents -/

/-- Two values have the same content, as far as their parts have. -/
inductive Same (h : Heap) : Nat → Value → Value → Prop where
  | undefined {n : Nat} : Same h n .undefined .undefined
  | int {n : Nat} (v : Int64) : Same h n (.int v) (.int v)
  | float {n : Nat} {v w : Float} (hbits : v.toBits = w.toBits) : Same h n (.float v) (.float w)
  | char {n : Nat} (c : Char) : Same h n (.char c) (.char c)
  | bool {n : Nat} (b : Bool) : Same h n (.bool b) (.bool b)
  | string {n : Nat} (s : String) : Same h n (.string s) (.string s)
  | bytes {n : Nat} {a b : Addr} (heq : h.buffer a = h.buffer b) : Same h n (.bytes a) (.bytes b)
  | time {n : Nat} (t : Instant) : Same h n (.time t) (.time t)
  | native {n : Nat} {f g : Native} (hname : f.name = g.name) : Same h n (.native f) (.native g)
  | function {n : Nat} {f g : Function} (hsame : sameFunction f g = true) :
    Same h n (.function f) (.function g)
  | iterator {n : Nat} (kind : IteratorKind) (a : Addr) : Same h n (.iterator kind a) (.iterator kind a)
  | error {n : Nat} {v w : Value} (hsame : sameContent h n v w = true) :
    Same h n (.error v) (.error w)
  | array {n : Nat} {a b : Addr}
    (hsame : List.Forall₂ (sameContent h n · · = true) (h.array a).toList (h.array b).toList) :
    Same h (n + 1) (.array a) (.array b)
  | frozenArray {n : Nat} {a b : Addr}
    (hsame : List.Forall₂ (sameContent h n · · = true) (h.array a).toList (h.array b).toList) :
    Same h (n + 1) (.frozenArray a) (.frozenArray b)
  | map {n : Nat} {a b : Addr}
    (hsame : List.Forall₂ (fun e f => e.1 = f.1 ∧ sameContent h n e.2 f.2 = true)
      (h.map a).entries (h.map b).entries) : Same h (n + 1) (.map a) (.map b)
  | frozenMap {n : Nat} {a b : Addr}
    (hsame : List.Forall₂ (fun e f => e.1 = f.1 ∧ sameContent h n e.2 f.2 = true)
      (h.map a).entries (h.map b).entries) : Same h (n + 1) (.frozenMap a) (.frozenMap b)

theorem Program.sameEntries_iff {same : Value → Value → Bool} {xs ys : List (String × Value)} :
    sameEntries same xs ys = true ↔
      List.Forall₂ (fun e f => e.1 = f.1 ∧ same e.2 f.2 = true) xs ys := by
  induction xs generalizing ys with
  | nil => cases ys <;> simp [sameEntries]
  | cons x xs ih => cases ys <;> simp [sameEntries, ih]

theorem Same.content (hs : Same h n v w) : sameContent h n v w = true := by
  cases hs with
  | error hsame => rwa [sameContent_error]
  | array hsame | frozenArray hsame =>
    simpa [Value.unwrap] using Equality.sameItems_iff.2 hsame
  | map hsame | frozenMap hsame =>
    simpa [Value.unwrap] using sameEntries_iff.2 hsame
  | _ =>
    simp [Value.unwrap, Equality.sameAtoms, *]

/-- Floats and functions are the atoms of which the comparison sees more than a script does. -/
theorem Same.of_atoms (hs : Equality.sameAtoms h v w = true) (hfloat : ∀ a b, v = .float a → w = .float b → False)
    (hfunction : ∀ f g, v = .function f → w = .function g → False) (n : Nat) : Same h n v w := by
  cases Equality.sameAtoms_iff.1 hs with
  | float => exact (hfloat _ _ rfl rfl).elim
  | function => exact (hfunction _ _ rfl rfl).elim
  | bytes hab => exact .bytes hab
  | native hname => exact .native hname
  | _ => constructor

theorem Value.unwrap_cases (v : Value) : (∃ w, v = .error w ∧ v.unwrap.1 ≠ 0) ∨ v.unwrap = (0, v) := by
  cases v with
  | error w => exact .inl ⟨w, rfl, Nat.succ_ne_zero _⟩
  | _ => exact .inr rfl

theorem Same.of_content (hs : sameContent h n v w = true) : Same h n v w := by
  have hcount : v.unwrap.1 = w.unwrap.1 := by
    rw [sameContent] at hs
    exact beq_iff_eq.1 (Bool.and_eq_true_iff.1 hs).1
  rcases v.unwrap_cases with ⟨v, rfl, hv⟩ | hv <;> rcases w.unwrap_cases with ⟨w, rfl, hw⟩ | hw
  · exact .error (by rwa [sameContent_error] at hs)
  · exact absurd (by rw [hcount, hw]) hv
  · exact absurd (by rw [← hcount, hv]) hw
  · rw [sameContent, hv, hw] at hs
    simp only [beq_self_eq_true, Bool.true_and] at hs
    split at hs
    · exact .float (beq_iff_eq.1 hs)
    · exact .function hs
    · exact .array (Equality.sameItems_iff.1 hs)
    · exact .frozenArray (Equality.sameItems_iff.1 hs)
    · exact .map (sameEntries_iff.1 hs)
    · exact .frozenMap (sameEntries_iff.1 hs)
    · next hfloat hfunction _ _ _ _ => exact .of_atoms hs hfloat hfunction n

/-! ### Equal contents, equal bytes -/

section

/-- Values are nested in containers, which takes fuel, and in errors, which does not. -/
theorem Value.level_induction {P : Nat → Value → Prop}
    (step : ∀ n v, (∀ m, n = m + 1 → ∀ w, P m w) → (∀ x, v = .error x → P n x) → P n v) (n : Nat) (v : Value) :
    P n v := by
  induction n using Nat.strongRecOn generalizing v with
  | _ n ihn =>
    have hitems : ∀ m, n = m + 1 → ∀ w, P m w := fun m hm => ihn m (hm ▸ Nat.lt_succ_self m)
    induction v with
    | error x ih => exact step n _ hitems fun y hy => Value.error.inj hy ▸ ih
    | _ => exact step n _ hitems fun y hy => by cases hy

theorem Value.moduleName?_frozenMap (h : Heap) (a : Addr) :
    Value.moduleName? h (.frozenMap a) = ((h.map a).find? moduleNameKey).bind Value.text? := by
  rw [Value.moduleName?]
  cases (h.map a).find? moduleNameKey with
  | none => rfl
  | some v => cases v <;> rfl

/-- The name of a module is one of its entries. -/
theorem Value.mem_of_moduleName? {a : Addr} {name : String} (hname : Value.moduleName? h (.frozenMap a) = some name) :
    (moduleNameKey, .string name) ∈ (h.map a).entries := by
  rw [Value.moduleName?_frozenMap] at hname
  obtain ⟨v, hfind, hv⟩ := Option.bind_eq_some_iff.1 hname
  cases v <;> cases hv
  exact Entries.mem_of_find? hfind

theorem Program.text?_of_sameContent (hs : sameContent h n v w = true) : v.text? = w.text? := by
  cases Same.of_content hs <;> rfl

/-- Maps with the same content are modules of one name, or none is a module. -/
theorem Program.moduleName?_of_same {a b : Addr}
    (hs : List.Forall₂ (fun e f => e.1 = f.1 ∧ sameContent h n e.2 f.2 = true) (h.map a).entries
      (h.map b).entries) : Value.moduleName? h (.frozenMap a) = Value.moduleName? h (.frozenMap b) := by
  rw [Value.moduleName?_frozenMap, Value.moduleName?_frozenMap, Dict.find?, Dict.find?]
  generalize (h.map a).entries = xs, (h.map b).entries = ys at hs
  induction hs with
  | nil => rfl
  | @cons e f _ _ hef _ ih =>
    simp only [Entries.find?, ← hef.1]
    split
    · exact text?_of_sameContent hef.2
    · exact ih

/-- What a value is stored as, every value with the same content is stored as. -/
def Carries (h : Heap) (n : Nat) (v : Value) : Prop :=
  ∀ w b, sameContent h n v w = true → value h n v = .ok b → value h n w = .ok b

theorem Form.carried (hitems : ∀ m, n = m + 1 → ∀ v, Carries h m v)
    (herror : ∀ x, v = .error x → Carries h n x) (hs : Same h n v w) (hform : Form h n v t b) : Form h n w t b := by
  cases hs with
  | float hbits =>
    cases hform
    rw [f64, hbits]
    exact .float _
  | bytes heq =>
    cases hform
    rw [heq]
    exact .bytes _
  | native hname =>
    cases hform
    rw [hname]
    exact .native _
  | function hsame =>
    cases hform with
    | function hb => exact .function (function_of_same hsame hb)
  | error hsame =>
    cases hform with
    | error hb => exact .error (herror _ rfl _ _ hsame hb)
  | @array m a a' hsame =>
    cases hform with
    | array hb =>
      have hsize : (h.array a).size = (h.array a').size := by simpa using hsame.length_eq
      rw [hsize]
      exact .array (each_congr (hsame.imp fun x y hxy c => hitems m rfl x y c hxy) hb)
  | @frozenArray m a a' hsame =>
    cases hform with
    | frozenArray hb =>
      have hsize : (h.array a).size = (h.array a').size := by simpa using hsame.length_eq
      rw [hsize]
      exact .frozenArray (each_congr (hsame.imp fun x y hxy c => hitems m rfl x y c hxy) hb)
  | @map m a a' hsame =>
    cases hform with
    | map hb =>
      exact .map (entries_congr (hsame.imp fun x y hxy => ⟨hxy.1, fun c => hitems m rfl x.2 y.2 c hxy.2⟩) hb)
  | @frozenMap m a a' hsame =>
    have hname := moduleName?_of_same hsame
    have hentries := hsame.imp fun x y hxy => And.intro hxy.1 fun c => hitems m rfl x.2 y.2 c hxy.2
    cases hform with
    | frozenMap hnone hb => exact .frozenMap (hname ▸ hnone) (entries_congr hentries hb)
    | module hsome hb => exact .module (hname ▸ hsome) (entries_congr hentries hb)
  | _ => exact hform

theorem carries_step (hitems : ∀ m, n = m + 1 → ∀ v, Carries h m v)
    (herror : ∀ x, v = .error x → Carries h n x) : Carries h n v := by
  intro w bytes hs hbytes
  obtain ⟨t, b, hform, rfl⟩ := Form.of_value hbytes
  exact (hform.carried hitems herror (.of_content hs)).value_eq

theorem carries (h : Heap) (n : Nat) (v : Value) : Carries h n v :=
  Value.level_induction (fun _ _ => carries_step) n v

theorem Program.code?_of_sameContent (hs : sameContent h n v w = true) : v.code? = w.code? := by
  cases Same.of_content hs with
  | function hsame => exact congrArg some (sameFunction_iff.1 hsame).1
  | _ => rfl

end

/-- What a program is stored as, every program with the same content is stored as. -/
theorem Program.encodeWith_of_same {checksum : Array UInt8 → UInt32} {p q : Program}
    (hsame : p.same q h = true) (hbytes : p.encodeWith checksum h = .ok bytes) :
    q.encodeWith checksum h = .ok bytes := by
  simp only [same, Bool.and_eq_true, beq_iff_eq, Equality.sameItems_iff] at hsame
  obtain ⟨⟨hfiles, hfunction⟩, hitems⟩ := hsame
  have hsize : p.constants.size = q.constants.size := by simpa using hitems.length_eq
  obtain ⟨main, hmain, hbytes⟩ := exists_of_bind_eq_ok hbytes
  obtain ⟨constants, hconstants, hbytes⟩ := exists_of_bind_eq_ok hbytes
  rw [encodeWith, function_of_same hfunction hmain,
    each_congr (hitems.imp fun x y hxy b => carries h h.depth x y b hxy) hconstants, ← hfiles, ← hsize]
  exact hbytes

end ScriptEngine
