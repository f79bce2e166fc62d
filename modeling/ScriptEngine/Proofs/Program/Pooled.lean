import ScriptEngine.Proofs.Code.Rewriting
import ScriptEngine.Proofs.Program.Merging
import ScriptEngine.Proofs.Storage.Validated
/-!
# Merging the constants of any program

What merging equal constants does to a program that validation accepts, whoever made it. Its functions may refer
to each other in any order: one that refers to a constant without a number yet is taken in as it is, and gets
its new numbers at the end. Main statement: every reference to a constant is now one to an equal constant, and
nothing else has changed (`Program.dedup_maps`).
-/

namespace ScriptEngine

variable {key : ConstantKey} {same : Dict Value → Dict Value → Prop} {f g : Function} {h : Heap} {i n size : Nat}
  {ρ : Nat → Nat} {v : Value}

/-! ### Constants -/

/-- A function is another one with new numbers in its code; only its identity may be another one too. -/
structure Function.Rewritten (ρ : Nat → Nat) (f g : Function) : Prop where
  code : Renumbers ρ f.code g.code
  rest : g = { f with code := g.code, id := g.id }

/-- A constant is equal to another one, up to the numbers of constants in the code of a function. Floats are
equal if their bits are, and maps if their entries are the same. -/
def Value.Rewritten (same : Dict Value → Dict Value → Prop) (h : Heap) (ρ : Nat → Nat) : Value → Value → Prop
  | .function f, w => ∃ g, w = .function g ∧ f.Rewritten ρ g
  | .float x, w => ∃ y, w = .float y ∧ y.toBits = x.toBits
  | .frozenMap a, w => ∃ b, w = .frozenMap b ∧ same (h.map a) (h.map b)
  | v, w => w = v

/-- A container whose content can be changed. -/
def Value.isMutable : Value → Bool
  | .array _ | .map _ | .bytes _ => true
  | _ => false

/-- What merging takes for granted about the constants of a program. -/
structure Mergeable (same : Dict Value → Dict Value → Prop) (h : Heap) (cs : List Value) : Prop where
  refl : ∀ d, same d d
  inRange : ∀ f, .function f ∈ cs → f.InRange cs.length
  captured : ∀ f, .function f ∈ cs → f.captured = #[]
  modules : ∀ a b name, .frozenMap a ∈ cs → .frozenMap b ∈ cs → (Value.frozenMap a).moduleName? h = some name →
    (Value.frozenMap b).moduleName? h = some name → same (h.map a) (h.map b)

namespace Dedup

variable {cs : List Value} {r : Renumbering} {p : Pool} {w : Value}

theorem Pooled.renumbers (hp : Pooled h cs.length cs r p) (hcs : Mergeable same h cs) {bytes : List UInt8}
    (hf : .function f ∈ cs) (hcode : r.code f.code = some bytes) : Renumbers r.number f.code bytes.toArray := by
  have hassigned := hp.numbered.assigned
  have hrange := hcs.inRange f hf
  obtain ⟨bytes', hbytes', hrenumbers⟩ := Renumbering.code_whole hrange.whole (hassigned ▸ hrange.constants)
    (hassigned ▸ hp.numbered.small)
  cases hcode.symm.trans hbytes'
  exact hrenumbers

/-- What stands in the pool is a constant, or a function without captured variables. -/
theorem Pooled.drawn (hp : Pooled h cs.length cs r p) (hcs : Mergeable same h cs) {k : Nat}
    (hw : p.constants[k]? = some w) : w ∈ cs ∨ ∃ g, w = .function g ∧ g.captured = #[] := by
  obtain ⟨i, v, hv, -, ⟨-, hform⟩ | ⟨-, rfl, -⟩, -⟩ := hp.origin k w hw
  · have hv := List.mem_of_getElem? hv
    cases v with
    | function f =>
      obtain ⟨bytes, -, rfl⟩ := hform
      exact .inr ⟨_, rfl, hcs.captured f hv⟩
    | _ => exact .inl (hform ▸ hv)
  · exact .inl (List.mem_of_getElem? hv)

theorem Forms.rewritten (hw : Forms r v w) (hcs : Mergeable same h cs) (hp : Pooled h cs.length cs r p) (hv : v ∈ cs) :
    v.Rewritten same h r.number w := by
  cases v with
  | function f =>
    obtain ⟨bytes, hcode, rfl⟩ := hw
    exact ⟨_, rfl, hp.renumbers hcs hv hcode, rfl⟩
  | frozenMap a =>
    cases hw
    exact ⟨a, rfl, hcs.refl _⟩
  | float x =>
    cases hw
    exact ⟨x, rfl, rfl⟩
  | _ => exact hw

/-- What a constant with a key is. -/
def Marks (h : Heap) : ConstantKey → Value → Prop
  | .int x, v => v = .int x
  | .float bits, v => ∃ x, v = .float x ∧ x.toBits = bits
  | .char x, v => v = .char x
  | .text x, v => v = .string x
  | .module name, v => ∃ a, v = .frozenMap a ∧ (Value.frozenMap a).moduleName? h = some name
  | .function code locals parameters variadic positions, v =>
    ∃ f, v = .function f ∧ f = { f with code := code.toArray, locals, parameters, variadic, positions }

theorem marks_of_keyOf (hkey : keyOf h v = some key) : Marks h key v := by
  cases v with
  | frozenMap a =>
    obtain ⟨name, hname, rfl⟩ := Option.map_eq_some_iff.1 hkey
    exact ⟨a, rfl, hname⟩
  | float x =>
    cases hkey
    exact ⟨x, rfl, rfl⟩
  | function f =>
    cases hkey
    exact ⟨f, rfl, rfl⟩
  | int _ | char _ | string _ =>
    cases hkey
    rfl
  | _ => cases hkey

/-- A constant stands for all those whose final form has its key. -/
theorem Forms.rewritten_of_key {x : Value} (hw : Forms r v w) (hcs : Mergeable same h cs)
    (hp : Pooled h cs.length cs r p) (hv : v ∈ cs) (hkey : keyOf h w = some key)
    (hx : x ∈ cs ∨ ∃ g, x = .function g ∧ g.captured = #[]) (hsame : keyOf h x = some key) :
    v.Rewritten same h r.number x := by
  have hmarks := marks_of_keyOf hsame
  cases v with
  | function f =>
    obtain ⟨bytes, hcode, rfl⟩ := hw
    cases hkey
    obtain ⟨g, rfl, hg⟩ := hmarks
    have hbytes : g.code = bytes.toArray := by rw [hg]
    have hcaptured : g.captured = f.captured := by
      rw [hcs.captured f hv]
      rcases hx with hx | ⟨g', hg', hempty⟩
      · exact hcs.captured g hx
      · cases hg'
        exact hempty
    refine ⟨g, rfl, hbytes ▸ hp.renumbers hcs hv hcode, ?_⟩
    rw [hg, hcaptured]
  | frozenMap a =>
    cases hw
    obtain ⟨name, hname, rfl⟩ := Option.map_eq_some_iff.1 hkey
    obtain ⟨b, rfl, hname'⟩ := hmarks
    rcases hx with hx | ⟨g, hg, -⟩
    · exact ⟨b, rfl, hcs.modules a b name hv hx hname hname'⟩
    · cases hg
  | int _ | char _ | string _ | float _ =>
    cases hw
    cases hkey
    exact hmarks
  | _ =>
    cases hw
    cases hkey

/-- A constant that is no function is found under its key. -/
theorem Pooled.known {total : Nat} (hp : Pooled h total cs r p) (hv : cs[i]? = some v)
    (hfunction : ∀ f, v ≠ .function f) (hkey : keyOf h v = some key) :
    p.keys.find? (·.1 = key) = some (key, r.number i) := by
  obtain ⟨w, u, hu, ⟨hsettled, hform⟩ | ⟨-, -, f, hf⟩, halike⟩ := hp.shows i v hv
  · obtain rfl := hform.eq hfunction
    refine hp.indexed _ u key hu hsettled ?_
    rcases halike with rfl | ⟨-, rfl | ⟨key', hkey', hsame⟩⟩
    · exact hkey
    · exact hkey
    · exact hsame.trans (hkey'.symm.trans hkey)
  · exact absurd hf (hfunction f)

/-! ### The functions that are renumbered at the end -/

theorem getElem?_foldl_modify (f : Value → Value) {ks : List Nat} (hks : ks.Nodup) (as : Array Value) (k : Nat) :
    (ks.foldl (fun as k => as.modify k f) as)[k]? = if k ∈ ks then as[k]?.map f else as[k]? := by
  induction ks generalizing as with
  | nil => rfl
  | cons j rest ih =>
    obtain ⟨hj, hrest⟩ := List.nodup_cons.1 hks
    rw [List.foldl_cons, ih hrest, Array.getElem?_modify]
    by_cases hk : j = k
    · subst hk
      rw [if_neg hj, if_pos rfl, if_pos (List.mem_cons_self ..)]
    · have hmem : k ∈ j :: rest ↔ k ∈ rest := by rw [List.mem_cons, or_iff_right (Ne.symm hk)]
      simp only [if_neg hk, hmem]

theorem size_foldl_modify (f : Value → Value) (ks : List Nat) (as : Array Value) :
    (ks.foldl (fun as k => as.modify k f) as).size = as.size := by
  induction ks generalizing as with
  | nil => rfl
  | cons j rest ih => rw [List.foldl_cons, ih, Array.size_modify]

/-- Every constant has its final form in the end. -/
theorem Pooled.rewritten (hcs : Mergeable same h cs) (hp : Pooled h cs.length cs r p) (hv : cs[i]? = some v) :
    ∃ w, (p.deferred.foldl (fun as k => as.modify k r.constant) p.constants)[r.number i]? = some w ∧
      v.Rewritten same h r.number w := by
  have hmem := List.mem_of_getElem? hv
  rw [getElem?_foldl_modify _ hp.once]
  obtain ⟨w, u, hu, ⟨hsettled, hform⟩ | ⟨hdeferred, rfl, f, rfl⟩, halike⟩ := hp.shows i v hv
  · refine ⟨u, by rw [if_neg hsettled, hu], ?_⟩
    rcases halike.elim .inl And.right with rfl | ⟨key, hkey, hsame⟩
    · exact hform.rewritten hcs hp hmem
    · exact hform.rewritten_of_key hcs hp hmem hkey (hp.drawn hcs hu) hsame
  · obtain rfl := halike.resolve_right fun hother => hother.1 hdeferred
    have hrange := hcs.inRange f hmem
    have hassigned := hp.numbered.assigned
    obtain ⟨bytes, hbytes, hrenumbers⟩ := Renumbering.code_whole hrange.whole (hassigned ▸ hrange.constants)
      (hassigned ▸ hp.numbered.small)
    refine ⟨.function { f with code := bytes.toArray }, ?_, _, rfl, hrenumbers, rfl⟩
    rw [if_pos hdeferred, hu, Option.map_some, Renumbering.constant, Renumbering.function, hbytes]
    rfl

end Dedup

/-! ### Programs -/

theorem Instruction.first_renumber_lt {i : Instruction} (hop : i.op.takesConstant = true) (hfirst : i.first < n)
    (hρ : ∀ k < n, ρ k < size) : (i.renumber ρ).first < size := by
  obtain ⟨offset, op, operands⟩ := i
  rw [renumber, Opcode.renumber, if_pos hop]
  cases operands with
  | nil => exact Nat.lt_of_le_of_lt (Nat.zero_le _) (hρ 0 hfirst)
  | cons k rest => exact hρ k hfirst

theorem Function.Rewritten.inRange (h : f.Rewritten ρ g) (hf : f.InRange n) (hρ : ∀ i < n, ρ i < size) :
    g.InRange size := by
  have hmem : ∀ j ∈ (walk g.code).instructions, ∃ i ∈ (walk f.code).instructions, i.renumber ρ = j := by
    rw [h.code.walk]
    exact fun j hj => Array.mem_map.1 hj
  refine ⟨?_, fun j hj hop => ?_, fun j hj hop => ?_⟩
  · rw [h.code.walk]
  · obtain ⟨i, hi, rfl⟩ := hmem j hj
    exact Instruction.first_renumber_lt hop (hf.constants i hi hop) hρ
  · obtain ⟨i, hi, rfl⟩ := hmem j hj
    have hop : i.op = .getBuiltin := hop
    have hsame : i.renumber ρ = i := by
      rw [Instruction.renumber, Opcode.renumber, if_neg (by rw [hop]; decide)]
    rw [hsame]
    exact hf.builtins i hi hop

theorem Value.Rewritten.function_inv (hw : v.Rewritten same h ρ (.function g)) :
    ∃ f, v = .function f ∧ f.Rewritten ρ g := by
  cases v with
  | function f =>
    obtain ⟨g', hg, hrewritten⟩ := hw
    cases hg
    exact ⟨f, rfl, hrewritten⟩
  | float _ | frozenMap _ =>
    obtain ⟨_, hw, -⟩ := hw
    cases hw
  | _ => cases hw

namespace Program

/-- A program is another one with constants merged: constant `i` has become constant `m i`. -/
structure Remaps (same : Dict Value → Dict Value → Prop) (h : Heap) (m : Nat → Nat) (p q : Program) : Prop where
  files : q.files = p.files
  main : p.main.Rewritten m q.main
  identity : q.main.id = p.main.id
  small : ∀ i < p.constants.size, m i ≤ i
  constants : ∀ (i : Nat) v, p.constants[i]? = some v → ∃ w, q.constants[m i]? = some w ∧ v.Rewritten same h m w
  onto : ∀ k < q.constants.size, ∃ i < p.constants.size, m i = k
  /-- A container that can be changed is merged with nothing. -/
  apart : ∀ (i j : Nat) v, p.constants[i]? = some v → v.isMutable = true → j < p.constants.size → m j = m i → j = i
  /-- Other constants with one key are merged. -/
  merged : ∀ (i j : Nat) v w key, p.constants[i]? = some v → p.constants[j]? = some w → (∀ f, v ≠ .function f) →
    Dedup.keyOf h v = some key → Dedup.keyOf h w = some key → m j = m i

variable {m : Nat → Nat} {p q : Program}

theorem Remaps.below (hq : p.Remaps same h m q) (hi : i < p.constants.size) : m i < q.constants.size := by
  obtain ⟨w, hw, -⟩ := hq.constants i _ (Array.getElem?_eq_getElem hi)
  exact (Array.getElem?_eq_some_iff.1 hw).1

/-- References stay in range. -/
theorem Remaps.validate (hq : p.Remaps same h m q) (hp : p.validate = .ok ()) : q.validate = .ok () := by
  rw [validate_eq_ok_iff] at hp ⊢
  have hrange : ∀ {f g : Function}, f ∈ p.main :: p.functions → f.Rewritten m g → g.InRange q.constants.size :=
    fun hf hg => hg.inRange (hp _ hf) fun i hi => hq.below hi
  intro g hg
  rcases List.mem_cons.1 hg with rfl | hg
  · exact hrange (List.mem_cons_self ..) hq.main
  · obtain ⟨k, hk, hget⟩ := Array.mem_iff_getElem.1 (mem_functions_iff.1 hg)
    obtain ⟨i, hi, rfl⟩ := hq.onto k hk
    obtain ⟨w, hw, hrewritten⟩ := hq.constants i _ (Array.getElem?_eq_getElem hi)
    obtain rfl : .function g = w := by rw [Array.getElem?_eq_getElem hk, hget] at hw; exact Option.some.inj hw
    obtain ⟨f, hf, hrewritten⟩ := hrewritten.function_inv
    exact hrange (List.mem_cons_of_mem _ (mem_functions_iff.2 (hf ▸ Array.getElem_mem hi))) hrewritten

theorem keyOf_of_isMutable (hv : v.isMutable = true) : Dedup.keyOf h v = none := by
  cases v with
  | array _ | map _ | bytes _ => rfl
  | _ => cases hv

theorem remaps_dedup (hvalid : p.validate = .ok ()) (hcs : Mergeable same h p.constants.toList) :
    ∃ m, p.Remaps same h m (p.dedup h) := by
  obtain ⟨r, pool, hrun⟩ : ∃ r pool, Dedup.takeAll h p.constants.toList { total := p.constants.size } {} = (r, pool) :=
    ⟨_, _, rfl⟩
  have hpooled : Dedup.Pooled h p.constants.toList.length p.constants.toList r pool := by
    have := Dedup.pooled_takeAll h p.constants
    rwa [hrun] at this
  have hnumbered := hpooled.numbered
  have hmain := validate_eq_ok_iff.1 hvalid p.main (List.mem_cons_self ..)
  obtain ⟨bytes, hbytes, hrenumbers⟩ := Dedup.Renumbering.code_whole hmain.whole
    (hnumbered.assigned ▸ hmain.constants) (hnumbered.assigned ▸ hnumbered.small)
  have hdedup : p.dedup h = { p with
      main := { p.main with code := bytes.toArray }
      constants := pool.deferred.foldl (fun cs i => cs.modify i r.constant) pool.constants } := by
    have hfunction : r.function p.main = some { p.main with code := bytes.toArray } := by
      rw [Dedup.Renumbering.function, hbytes, Option.map_some]
    rw [dedup, hrun]
    dsimp only
    rw [hfunction, Option.getD_some]
  have hget : ∀ {i : Nat} {v}, p.constants[i]? = some v → p.constants.toList[i]? = some v := by
    intro i v hv
    rwa [Array.getElem?_toList]
  rw [hdedup]
  refine ⟨r.number, rfl, ⟨hrenumbers, rfl⟩, rfl, hnumbered.small, ?_, ?_, ?_, ?_⟩
  · intro i v hv
    exact hpooled.rewritten hcs (hget hv)
  · intro k hk
    rw [Dedup.size_foldl_modify] at hk
    obtain ⟨i, v, hv, hi, -⟩ := hpooled.origin k _ (Array.getElem?_eq_getElem hk)
    exact ⟨i, (List.getElem?_eq_some_iff.1 hv).1, hi⟩
  · intro i j v hv hmutable hj hsame
    exact hpooled.apart i v (hget hv) (keyOf_of_isMutable hmutable) j hj hsame
  · intro i j v w key hv hw hfunction hkey hkey'
    have hfunction' : ∀ f, w ≠ .function f := by
      rintro f rfl
      cases hkey'
      obtain ⟨g, hg, -⟩ := Dedup.marks_of_keyOf hkey
      exact hfunction g hg
    have hfound := hpooled.known (hget hw) hfunction' hkey'
    rw [hpooled.known (hget hv) hfunction hkey] at hfound
    exact (congrArg Prod.snd (Option.some.inj hfound)).symm

/-- Two functions that refer to each other, two equal numbers with a function for each, two arrays and a module
that is there twice. -/
def entangled : Program where
  main := loading 0 5
  constants := #[.function (loading 1 1), .function (loading 2 0), .int 7, .int 7, .function (loading 3 2),
    .function (loading 4 3), .array 0, .array 1, .frozenMap 0, .frozenMap 1]

def entangledHeap : Heap where
  arrays := #[#[], #[]]
  maps := Array.replicate 2 (({} : Dict Value).insert moduleNameKey (.string "m"))

end Program

end ScriptEngine
