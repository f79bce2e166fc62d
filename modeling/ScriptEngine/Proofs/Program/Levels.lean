import ScriptEngine.Proofs.Compiler.Spans
import ScriptEngine.Proofs.Program.Sound
/-!
# Levels of the stack in programs

At every instruction of a compiled function a known number of values is waiting on the stack, on whatever
way control got there, and no statement leaves values behind. Main statement: so it is for all programs
in which the number of selectors of every assignment fits into its operand (`balances_of_compile`). Without this
condition a statement can leave values behind (`not_levelled_nested`).
-/

namespace ScriptEngine

open SymbolTable (root)

variable {inLoop : Bool} {c : Code} {ctx : Context} {k : Height} {ls : List Line} {ss : List Stmt}
  {globals next stop : Nat} {ρ : Nat → Nat} {pos : Pos} {p : Program}

variable {cs : Array Value} {o : CompileOptions} {f : Function} {h : Height} {l : Line} {n start : Nat} {σ σ' : Stage}

/-- Where control goes from an instruction at which some values are waiting, and how many are waiting there. -/
def Instruction.flows (i : Instruction) (height : Nat) : List (Nat × Nat) :=
  match i.op with
  | .jump => [(i.first, height)]
  | .jumpFalsy => [(i.first, height - 1), (i.offset + i.op.length, height - 1)]
  | .andJump | .orJump => [(i.first, height), (i.offset + i.op.length, height - 1)]
  | .ret | .suspend => []
  | op => [(i.offset + i.op.length, height - op.takes i.operands + op.gives)]

/-- Numbers of waiting values fit the code of a function: none at its start, never less than an
instruction takes, and the same along every way to an instruction. -/
structure Function.Levelled (f : Function) (heightAt : Nat → Nat) : Prop where
  entry : heightAt 0 = 0
  enough : ∀ i ∈ (walk f.code).instructions, i.op.takes i.operands ≤ heightAt i.offset
  flows : ∀ i ∈ (walk f.code).instructions, ∀ x ∈ i.flows (heightAt i.offset), heightAt x.1 = x.2

/-- Numbers of waiting values fit the code of a function that does some statements, and nothing is
waiting where any statement in them starts or ends. -/
def Function.Balances (o : CompileOptions) (ss : List Stmt) (f : Function) : Prop :=
  ∃ (heightAt : Nat → Nat) (ctx : Context) (σ : Stage) (c : Code) (σ' : Stage) (ρ : Nat → Nat) (rest : List UInt8),
    Lowers o ctx (.stmts ss) σ c σ' ∧ f.code.toList = bytesOf ((c.renumber ρ).lines 0 0 0) ++ rest ∧
      f.Levelled heightAt ∧ ∀ s first last, Spans o s first last ctx (.stmts ss) σ c σ' 0 →
        heightAt first = 0 ∧ heightAt last = 0

/-! ### Heights at offsets -/

theorem Consecutive.le (h : Consecutive start ls) : ∀ l ∈ ls, start ≤ l.offset := by
  induction ls generalizing start with
  | nil => exact fun l hl => absurd hl List.not_mem_nil
  | cons first rest ih =>
    intro l hl
    rcases List.mem_cons.1 hl with rfl | hl
    · exact Nat.le_of_eq h.1.symm
    · exact Nat.le_trans (Nat.le_add_right _ _) (ih h.2 l hl)

/-- Lines that follow each other are found by their offsets. -/
theorem Consecutive.find?_zip (h : Consecutive start ls) {hs : List Height} (hmem : (l, k) ∈ ls.zip hs) :
    ((ls.zip hs).find? fun x => x.1.offset == l.offset) = some (l, k) := by
  induction ls generalizing start hs with
  | nil => cases hmem
  | cons first rest ih =>
    cases hs with
    | nil => cases hmem
    | cons k0 hs =>
      rw [List.zip_cons_cons] at hmem ⊢
      rcases List.mem_cons.1 hmem with heq | hmem
      · cases heq
        exact List.find?_cons_of_pos (beq_self_eq_true _)
      · have hlater := h.2.le l (List.of_mem_zip hmem).1
        have hlength : 0 < first.op.length := by
          rw [Opcode.length]
          omega
        rw [List.find?_cons_of_neg, ih h.2 hmem]
        simp only [beq_iff_eq]
        have hfirst := h.1
        omega

namespace Code

variable {offset : Nat}

/-- What is waiting at an offset of code that starts with nothing waiting. -/
def waitingAt (c : Code) (offset : Nat) : Option Height :=
  ((c.marks 0 0 0 .ground).find? fun x => x.1.offset == offset).map (·.2)

theorem waitingAt_mark (h : (l, k) ∈ c.marks 0 0 0 .ground) : c.waitingAt l.offset = some k := by
  rw [waitingAt, marks, (c.consecutive_lines 0 0 0).find?_zip h]
  rfl

theorem exists_mark_of_waitingAt (h : c.waitingAt n = some k) : ∃ l, (l, k) ∈ c.marks 0 0 0 .ground ∧ l.offset = n := by
  obtain ⟨⟨l, k'⟩, hfind, rfl⟩ := Option.map_eq_some_iff.1 h
  exact ⟨l, List.mem_of_find?_eq_some hfind, by simpa using List.find?_some hfind⟩

theorem Leads.waitingAt (h : c.Leads false 0 0 0 .ground offset k) (hfalls : c.falls = false) :
    c.waitingAt offset = some k := by
  obtain ⟨l, hmark, rfl⟩ := h.exists_mark hfalls
  exact waitingAt_mark hmark

/-- How many values are waiting at an offset of code that starts with none. -/
def heightAt (c : Code) (offset : Nat) : Nat := (c.waitingAt offset).elim 0 (·.values)

theorem heightAt_eq (h : c.waitingAt offset = some k) : c.heightAt offset = k.values := by
  rw [heightAt, h]
  rfl

theorem offset_lt_size (h : l ∈ c.lines 0 0 0) : l.offset < c.size := by
  have hin := (Array.getElem?_eq_some_iff.1 (c.in_lines 0 0 l h).byte).1
  simpa [length_bytesOf_lines] using hin

/-- Nothing is waiting behind the code. -/
theorem heightAt_size (c : Code) : c.heightAt c.size = 0 := by
  cases hsome : c.waitingAt c.size with
  | none =>
    rw [heightAt, hsome]
    rfl
  | some k =>
    obtain ⟨l, hmark, hoffset⟩ := exists_mark_of_waitingAt hsome
    exact absurd hoffset (Nat.ne_of_lt (offset_lt_size (List.of_mem_zip hmark).1))

theorem Rests.heightAt (h : c.Rests false 0 0 0 .ground offset) (hfalls : c.falls = false) : c.heightAt offset = 0 := by
  rcases h with h | ⟨rfl, -⟩
  · exact heightAt_eq (h.waitingAt hfalls)
  · rw [Nat.zero_add]
    exact c.heightAt_size

theorem heights_renumber (c : Code) (h : Height) : (c.renumber ρ).heights h = c.heights h := by
  induction c generalizing h with
  | nop | instr | leave => rfl
  | seq a b iha ihb => simp only [renumber, heights, iha, ihb, after_renumber]
  | skip pos branch body ih => simp only [renumber, heights, ih]
  | choose pos yes no ihy ihn => simp only [renumber, heights, ihy, ihn, after_renumber]
  | loop pos head tests body post ihh ihb ihp => simp only [renumber, heights, ihh, ihb, ihp, after_renumber]

theorem marks_renumber (c : Code) (start stop next : Nat) (h : Height) : (c.renumber ρ).marks start stop next h =
    (c.marks start stop next h).map fun x => (x.1.renumber ρ, x.2) := by
  rw [marks, lines_renumber, heights_renumber, List.zip_map_left]
  rfl

/-- New numbers of constants make no difference to where control goes. -/
theorem Leads.renumber (hc : c.Leads inLoop start stop next h offset k) :
    (c.renumber ρ).Leads inLoop start stop next h offset k := by
  cases hc with
  | mark hmem =>
    rename_i l
    refine .mark (l := l.renumber ρ) ?_
    rw [marks_renumber]
    exact List.mem_map_of_mem hmem
  | last hfalls =>
    rw [← size_renumber c, ← after_renumber h]
    exact .last (by rwa [falls_renumber])
  | stop hloop => exact .stop hloop
  | next hloop => exact .next hloop

theorem Rests.renumber (hc : c.Rests inLoop start stop next h offset) :
    (c.renumber ρ).Rests inLoop start stop next h offset := by
  rcases hc with hc | ⟨rfl, hafter⟩
  · exact .inl hc.renumber
  · exact .inr ⟨by rw [size_renumber], by rw [after_renumber, hafter]⟩

end Code

/-! ### Functions -/

theorem Line.flows_instruction (hfits : l.Fits) (k : Height) :
    l.instruction.flows k.values = (l.flows k).map fun x => (x.1, x.2.values) := by
  rw [hfits.instruction]
  obtain ⟨pos, offset, op, operands⟩ := l
  cases op <;> rfl

/-- Heights of balanced code fit the function that has the code. -/
theorem Code.Writes.levelled (h : c.Writes f) (hbalanced : c.Balanced false .ground)
    (hfalls : c.falls = false) (hfits : c.Fits) (hsmall : f.code.size < capacity 4) : f.Levelled c.heightAt := by
  have hlines : ∀ l ∈ c.lines 0 0 0, l.Fits := by
    refine Code.fits_lines hfits ?_ (by decide) (by decide)
    rw [h.code] at hsmall
    simpa [Code.length_bytesOf_lines] using hsmall
  have henter : c.Leads false 0 0 0 .ground 0 .ground := hbalanced.enter
  refine ⟨Code.heightAt_eq (henter.waitingAt hfalls), fun i hi => ?_, fun i hi x hx => ?_⟩
  all_goals
    obtain ⟨l, hl, rfl⟩ := h.exists_line hi
    obtain ⟨k, hmark⟩ := Code.exists_height hl .ground
    have hheight : c.heightAt l.instruction.offset = k.values := Code.heightAt_eq (Code.waitingAt_mark hmark)
  · rw [hheight, (hlines l hl).instruction]
    exact (hbalanced.suffices hmark).1
  · rw [hheight] at hx
    rw [Line.flows_instruction (hlines l hl)] at hx
    obtain ⟨x, hflow, rfl⟩ := List.mem_map.1 hx
    exact Code.heightAt_eq ((hbalanced.flows hmark x hflow).waitingAt hfalls)

/-- Operands are read back as they were written if no assignment has too many selectors. -/
theorem Code.fits_of_sound {e : Extent} (hc : c.All (Opcode.Sound .shortTargets e cs n))
    (hbalanced : c.Balanced inLoop h) : c.Fits := by
  refine (hc.and hbalanced.plain).imp fun op operands hop => ?_
  rcases hop.1.cut hop.2 with hfits | ⟨hpart, i, m, rfl, htarget, hcut⟩
  · exact hfits
  · have hshort : m < capacity 1 := Nat.lt_succ_of_le (of_decide_eq_true htarget)
    -- The first operand is read back as it was written, so it fits.
    have hfirst : ∀ w, 0 < capacity w → i % capacity w = i → i < capacity w := fun w hw hi => hi ▸ Nat.mod_lt i hw
    cases op with
    | setSelGlobal => exact ⟨hfirst 2 (by decide) (List.cons.inj hcut).1, hshort, trivial⟩
    | setSelLocal | setSelFree => exact ⟨hfirst 1 (by decide) (List.cons.inj hcut).1, hshort, trivial⟩
    | _ => cases hpart

/-- A function with the code of some statements, which something may follow. -/
theorem Code.Comes.balances {a d : Code} (ha : a.Comes o ss) (hd : d = a ∨ ∃ b, d = a.seq b) (hwrites : d.Writes f)
    (hbalanced : d.Balanced false .ground) (hfalls : d.falls = false) (hfits : d.Fits)
    (hsmall : f.code.size < capacity 4) : f.Balances o ss := by
  obtain ⟨ctx, σ, c, σ', ρ, hlowers, hσ, hloop, rfl⟩ := ha
  have hlevelled := hwrites.levelled hbalanced hfalls hfits hsmall
  have hspans : ∀ s first last, Spans o s first last ctx (.stmts ss) σ c σ' 0 → ∀ offset,
      offset = first ∨ offset = last → (c.renumber ρ).Rests false 0 0 0 .ground offset := by
    intro s first last h offset hoffset
    have hrests := h.rests hσ hoffset 0 0
    rw [hloop] at hrests
    exact hrests.renumber
  rcases hd with rfl | ⟨b, rfl⟩
  · refine ⟨_, ctx, σ, c, σ', ρ, [], hlowers, ?_, hlevelled, fun s first last h => ⟨?_, ?_⟩⟩
    · rw [hwrites.code, List.append_nil]
    · exact (hspans s first last h first (.inl rfl)).heightAt hfalls
    · exact (hspans s first last h last (.inr rfl)).heightAt hfalls
  · refine ⟨_, ctx, σ, c, σ', ρ, bytesOf (b.lines (0 + (c.renumber ρ).size) 0 0), hlowers, ?_, hlevelled, fun s first last h => ⟨?_, ?_⟩⟩
    · rw [hwrites.code]
      exact bytesOf_append ..
    · exact ((hspans s first last h first (.inl rfl)).left hbalanced.2).heightAt hfalls
    · exact ((hspans s first last h last (.inr rfl)).left hbalanced.2).heightAt hfalls

/-! ### Programs -/

theorem Function.Sound.balances {m : Nat} (h : f.Sound o .shortTargets globals cs n m)
    (hsmall : f.code.size < capacity 4) : ∃ ss, f.Balances o ss := by
  obtain ⟨c, hwrites, ⟨hoperands, hbalanced, hfalls⟩, a, ss, pos, leaves, ha, rfl⟩ := h
  have hd : a.closing pos leaves = a ∨ ∃ b, a.closing pos leaves = a.seq b := by
    cases leaves with
    | true => exact .inl rfl
    | false => exact .inr ⟨_, rfl⟩
  exact ⟨ss, ha.balances hd hwrites hbalanced hfalls (Code.fits_of_sound hoperands hbalanced) hsmall⟩

theorem Code.Balanced.ending (h : c.Balanced false .ground) (hafter : c.after .ground = .ground) :
    c.ending.Balanced false .ground := by
  refine ⟨h, rfl, ?_⟩
  rw [hafter]
  exact ⟨Nat.le_refl 0, Nat.le_refl 0, fun h => by cases h⟩

theorem Program.Sound.balances_main (h : p.Sound o ss .shortTargets globals) (hsmall : p.main.code.size < capacity 4) :
    p.main.Balances o ss := by
  obtain ⟨c, hwrites, -, hoperands, ⟨hbalanced, hafter⟩, hcomes⟩ := h.main
  have hfits : c.ending.Fits := ⟨Code.fits_of_sound hoperands hbalanced, trivial⟩
  exact hcomes.balances (.inr ⟨_, rfl⟩) hwrites (hbalanced.ending hafter) rfl hfits hsmall

/-- The target `a.k.k` with some number of selectors. -/
def Expr.nested : Nat → Expr
  | 0 => .name "a"
  | n + 1 => .select Pos.unknown (nested n) "k"

/-- The program `for { a.k.k = 1 }` with some number of selectors. -/
def File.nested (n : Nat) : File where
  name := "main"
  stmts := [.loopOf none none none [.assignOf (.nested n) .assign (.int Pos.unknown 1)]]

theorem Expr.place?_nested (n : Nat) : (Expr.nested n).place? = some ("a", n) := by
  induction n with
  | zero => rfl
  | succ n ih => rw [nested, place?, ih, Option.map_some]

/-- An assignment to a part of a value is one instruction that counts the selectors. -/
theorem Stage.store_part {isDefine : Bool} {x : SymbolId} (hn : n ≠ 0) (h : σ.store pos isDefine n x = some (c, σ')) :
    ∃ op i, op.isPart = true ∧ c = .instr pos op [i, n] := by
  rw [store] at h
  split at h
  · rw [storeIn, beq_false_of_ne hn] at h
    cases hstorage : (σ.symbol x).storage <;> rw [hstorage] at h <;> cases h <;> exact ⟨_, _, rfl, rfl⟩
  · cases h

/-- The code of the program pushes the value and the selectors, assigns and starts again. -/
theorem Lowers.nested_eq (h : Lowers o ctx (.stmts (File.nested n).stmts) σ c σ') (hn : n ≠ 0) :
    ∃ (ctx : Context) (σ1 σ2 : Stage) (b : Code) (pos : Pos) (op : Opcode) (k i : Nat),
      c = ((Code.nop.seq (.loop Pos.unknown .nop false
        (((Code.instr Pos.unknown .const [k]).seq (b.seq (.instr pos op [i, n]))).seq .nop) .nop)).seq .nop) ∧
      Lowers o ctx (.selectors (.nested n)) σ1 b σ2 ∧ op.isPart = true := by
  cases h with
  | stmtsLast hleaves _ => cases hleaves
  | stmtsCons _ hstmt hrest =>
    cases hrest
    cases hstmt with
    | loop hinit hcond hbody hpost =>
      cases hinit
      cases hcond
      cases hpost
      cases hbody with
      | block _ hbody =>
        cases hbody with
        | stmtsLast hleaves _ => cases hleaves
        | stmtsCons _ hassign hrest =>
          cases hrest
          cases hassign with
          | assign hplace _ hvalue hselectors hstore =>
            rw [Expr.place?_nested] at hplace
            cases hplace
            obtain ⟨op, i, hpart, rfl⟩ := Stage.store_part hn hstore
            cases hvalue with
            | literal hliteral _ =>
              cases hliteral
              exact ⟨_, _, _, _, _, op, _, i, rfl, hselectors, hpart⟩

namespace Function.Levelled

variable {heightAt : Nat → Nat}

theorem const (h : f.Levelled heightAt) {operands : List Nat}
    (hl : (⟨pos, start, .const, operands⟩ : Line).instruction ∈ (walk f.code).instructions) :
    heightAt (start + Opcode.const.length) = heightAt start + 1 :=
  h.flows _ hl _ (List.mem_singleton.2 rfl)

/-- The selectors are pushed one by one. -/
theorem selectors (h : f.Levelled heightAt) (hselectors : Lowers o ctx (.selectors (.nested n)) σ c σ')
    (hlines : ∀ l ∈ (c.renumber ρ).lines start stop next, l.instruction ∈ (walk f.code).instructions) :
    heightAt (start + c.size) = heightAt start + n := by
  induction n generalizing σ c start with
  | zero =>
    cases hselectors
    rfl
  | succ n ih =>
    cases hselectors with
    | selectorsSelect _ hrest =>
      have hfirst := h.const (hlines _ (List.mem_append_left _ (List.mem_singleton.2 rfl)))
      have hlater : heightAt (start + Opcode.const.length + _) = heightAt (start + Opcode.const.length) + n :=
        ih hrest fun l hl => hlines l (List.mem_append_right _ hl)
      rw [Code.size, Code.size, ← Nat.add_assoc, hlater]
      omega
    | selectorsEnd hselect _ => exact absurd rfl (hselect _ _ _)

/-- An assignment to a part takes the selectors up to the capacity of its operand. -/
theorem part (h : f.Levelled heightAt) {op : Opcode} {i : Nat} (hpart : op.isPart = true)
    (hl : (⟨pos, start, op, [i, n]⟩ : Line).instruction ∈ (walk f.code).instructions) :
    heightAt (start + op.length) = heightAt start - (n % capacity 1 + 1) := by
  have hflows := h.flows _ hl
  cases op <;> first | exact hflows _ (List.mem_singleton.2 rfl) | cases hpart

end Function.Levelled

/-- With more selectors than an operand can count, no numbers of waiting values fit. -/
theorem not_levelled_nested {files : FileSet} {symbols : SymbolTable} {h : Heap} (hsymbols : symbols.Initial)
    (hmaps : o.modules.ProvidesMaps) (hn : 255 < n) (hok : (compile o files symbols (.nested n) h).result = .ok p)
    (heightAt : Nat → Nat) : ¬ p.main.Levelled heightAt := by
  intro hlevelled
  have hsound := sound_of_compile hsymbols hmaps o.modules.passes_any (Stmt.allPass_any _) hok
  obtain ⟨d, hwrites, -, -, -, ctx, σ, c, σ', ρ, hlowers, -, -, rfl⟩ := hsound.main
  obtain ⟨ctx, σ1, σ2, b, pos, op, k, i, rfl, hselectors, hpart⟩ := hlowers.nested_eq (by omega)
  obtain ⟨start, hstart⟩ : ∃ start, Opcode.const.length + b.size = start := ⟨_, rfl⟩
  have hkept : op.renumber ρ [i, n] = [i, n] := by
    cases op <;> first | rfl | cases hpart
  -- The lines of the loop: the value and the selectors, the assignment, and the jump back.
  have hlines : ∀ l, l = ⟨Pos.unknown, 0, .const, Opcode.renumber ρ .const [k]⟩ ∨
      l ∈ (b.renumber ρ).lines Opcode.const.length (start + op.length + Code.jumpLength) (start + op.length) ∨
      l = ⟨pos, start, op, [i, n]⟩ ∨ l = ⟨Pos.unknown, start + op.length, .jump, [0]⟩ →
        l.instruction ∈ (walk p.main.code).instructions := by
    intro l hl
    refine hwrites.instruction_mem ?_
    simp only [Code.renumber, Code.lines, Code.ending, Code.size, Code.size_renumber, Code.testLength, Code.testLines,
      hkept, List.mem_append, List.mem_singleton, List.not_mem_nil, Nat.zero_add, Nat.add_zero, ← Nat.add_assoc,
      hstart] at hl ⊢
    rcases hl with rfl | hl | rfl | rfl <;> simp [*]
  have hpushed : heightAt start = 1 + n := by
    have hvalue := hlevelled.const (hlines _ (.inl rfl))
    have hall := hlevelled.selectors hselectors fun l hl => hlines l (.inr (.inl hl))
    rw [Nat.zero_add, hlevelled.entry] at hvalue
    rw [← hstart, hall, hvalue]
  -- The assignment takes fewer selectors than there are, and the jump starts again with the others.
  have hleft := hlevelled.part hpart (hlines ⟨pos, start, op, [i, n]⟩ (.inr (.inr (.inl rfl))))
  have hback := hlevelled.flows _ (hlines ⟨Pos.unknown, start + op.length, .jump, [0]⟩ (.inr (.inr (.inr rfl))))
  have hagain : heightAt 0 = heightAt (start + op.length) := hback _ (List.mem_singleton.2 rfl)
  have hmany : n % capacity 1 < capacity 1 := Nat.mod_lt _ (by decide)
  have hcapacity : capacity 1 = 256 := rfl
  rw [hlevelled.entry] at hagain
  omega

end ScriptEngine
