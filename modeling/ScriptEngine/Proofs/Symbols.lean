import ScriptEngine.Proofs.Dict
import ScriptEngine.Symbol
/-!
# What operations on scopes change

Each operation on a table of symbols, said by what it does to the scopes and symbols.
-/

namespace ScriptEngine

variable {p : ScopeId} {t' : SymbolTable}

namespace SymbolTable

variable {t : SymbolTable} {s i : ScopeId} {name : String}

theorem scope_of_size_le (h : t.scopes.size ≤ i) : t.scope i = {} := by
  simp [scope, Nat.not_lt.2 h]

theorem lt_size_of_parent (h : (t.scope i).parent = some p) : i < t.scopes.size := by
  rcases Nat.lt_or_ge i t.scopes.size with hlt | hge
  · exact hlt
  · rw [scope_of_size_le hge] at h
    cases h

/-! ### Scopes -/

theorem scope_modifyScope (f : Scope → Scope) :
    (t.modifyScope s f).scope i = if s = i ∧ i < t.scopes.size then f (t.scope i) else t.scope i := by
  rcases Nat.lt_or_ge i t.scopes.size with hlt | hge
  · by_cases hs : s = i
    · simp [modifyScope, scope, hlt, Array.getElem_modify]
    · simp [modifyScope, scope, hlt, hs, Array.getElem_modify]
  · simp [modifyScope, scope, Nat.not_lt.2 hge]

@[simp]
theorem symbols_modifyScope (f : Scope → Scope) : (t.modifyScope s f).symbols = t.symbols := rfl

@[simp]
theorem size_modifyScope (f : Scope → Scope) : (t.modifyScope s f).scopes.size = t.scopes.size := by
  simp [modifyScope]

theorem scope_addScope (c : Scope) : (t.addScope c).2.scope i = if i = t.scopes.size then c else t.scope i := by
  by_cases hi : i = t.scopes.size
  · simp [addScope, scope, hi]
  · simp [addScope, scope, Array.getElem?_push, hi]

/-! ### Symbols -/

theorem symbol_addSymbol (sym : Symbol) (id : SymbolId) :
    (t.addSymbol s sym).2.symbol id = if id = t.symbols.size then sym else t.symbol id := by
  by_cases hid : id = t.symbols.size
  · simp [addSymbol, symbol, hid]
  · simp [addSymbol, symbol, Array.getElem?_push, hid]

theorem scope_addSymbol (sym : Symbol) :
    (t.addSymbol s sym).2.scope i =
      if s = i ∧ i < t.scopes.size then
        { t.scope i with names := (t.scope i).names.insert sym.name t.symbols.size }
      else t.scope i :=
  scope_modifyScope _

/-! ### Peaks -/

/-- Only peaks differ, and only upwards. -/
structure Raised (t t' : SymbolTable) : Prop where
  symbols : t'.symbols = t.symbols
  builtins : t'.builtins = t.builtins
  size : t'.scopes.size = t.scopes.size
  scope : ∀ i, ∃ peak, t'.scope i = { t.scope i with peak } ∧ (t.scope i).peak ≤ peak

theorem Raised.trans {t1 t2 t3 : SymbolTable} (h1 : Raised t1 t2) (h2 : Raised t2 t3) : Raised t1 t3 where
  symbols := h2.symbols.trans h1.symbols
  builtins := h2.builtins.trans h1.builtins
  size := h2.size.trans h1.size
  scope i := by
    obtain ⟨p1, hp1, hle1⟩ := h1.scope i
    obtain ⟨p2, hp2, hle2⟩ := h2.scope i
    rw [hp1] at hp2 hle2
    exact ⟨p2, hp2, Nat.le_trans hle1 hle2⟩

theorem raised_raiseOwnPeak (t : SymbolTable) (s : ScopeId) (n : Nat) : Raised t (t.raiseOwnPeak s n) where
  symbols := rfl
  builtins := rfl
  size := size_modifyScope _
  scope i := by
    rw [raiseOwnPeak, scope_modifyScope]
    split
    · exact ⟨_, rfl, Nat.le_max_left _ _⟩
    · exact ⟨_, rfl, Nat.le_refl _⟩

theorem Raised.parent (h : Raised t t') (i : ScopeId) : (t'.scope i).parent = (t.scope i).parent := by
  obtain ⟨p, hp, -⟩ := h.scope i
  rw [hp]

theorem Raised.isBlock (h : Raised t t') (i : ScopeId) : (t'.scope i).isBlock = (t.scope i).isBlock := by
  obtain ⟨p, hp, -⟩ := h.scope i
  rw [hp]

theorem Raised.peak (h : Raised t t') (i : ScopeId) : (t.scope i).peak ≤ (t'.scope i).peak := by
  obtain ⟨p, hp, hle⟩ := h.scope i
  rw [hp]
  exact hle

/-- The scope that owns the slots of a scope: the innermost one that is not a block. -/
def home (t : SymbolTable) (s : ScopeId) : ScopeId :=
  match t.parentOf s with
  | some ⟨p, _⟩ => if (t.scope s).isBlock then t.home p else s
  | none => s
termination_by s

theorem parentOf_eq_some (h : (t.scope s).parent = some p) (hlt : p < s) : t.parentOf s = some ⟨p, hlt⟩ := by
  simp [parentOf, h, hlt]

theorem parentOf_eq_none (h : (t.scope s).parent = none) : t.parentOf s = none := by
  simp [parentOf, h]

theorem raised_raisePeak (t : SymbolTable) (s : ScopeId) (n : Nat) : Raised t (t.raisePeak s n) := by
  fun_induction raisePeak t s n with
  | case1 t s p hlt hparent hblock ih => exact (raised_raiseOwnPeak t s n).trans ih
  | case2 t s p hlt hparent hblock | case3 t s hparent => exact raised_raiseOwnPeak t s n

/-- Whether the scopes up to one are nested alike in two tables. -/
def Alike (t t' : SymbolTable) (s : ScopeId) : Prop :=
  ∀ i ≤ s, (t'.scope i).parent = (t.scope i).parent ∧ (t'.scope i).isBlock = (t.scope i).isBlock

theorem Alike.lower (h : Alike t t' s) (hlt : p < s) : Alike t t' p :=
  fun i hi => h i (Nat.le_trans hi (Nat.le_of_lt hlt))

theorem Alike.parentOf (h : Alike t t' s) : t'.parentOf s = t.parentOf s := by
  rw [SymbolTable.parentOf, SymbolTable.parentOf, (h s (Nat.le_refl s)).1]

theorem Alike.home (h : Alike t t' s) : t'.home s = t.home s := by
  fun_induction SymbolTable.home t s with
  | case1 s p hlt hparent hblock ih =>
    rw [SymbolTable.home, h.parentOf, hparent]
    simp only [(h s (Nat.le_refl s)).2, hblock, if_true, ih (h.lower hlt)]
  | case2 s p hlt hparent hblock =>
    rw [SymbolTable.home, h.parentOf, hparent]
    simp only [(h s (Nat.le_refl s)).2, hblock]
    rfl
  | case3 s hparent => rw [SymbolTable.home, h.parentOf, hparent]

theorem Raised.alike (h : Raised t t') (s : ScopeId) : Alike t t' s :=
  fun i _ => ⟨h.parent i, h.isBlock i⟩

theorem home_le (t : SymbolTable) (s : ScopeId) : t.home s ≤ s := by
  fun_induction home t s with
  | case1 s p hlt hparent hblock ih => exact Nat.le_trans ih (Nat.le_of_lt hlt)
  | case2 s p hlt hparent hblock | case3 s hparent => exact Nat.le_refl s

theorem home_block {hlt : p < s} (h : t.parentOf s = some ⟨p, hlt⟩) (hblock : (t.scope s).isBlock = true) :
    t.home s = t.home p := by
  rw [home, h]
  simp [hblock]

theorem home_of_parentOf_none (h : t.parentOf s = none) : t.home s = s := by
  rw [home, h]

theorem home_of_not_block (hblock : (t.scope s).isBlock = false) : t.home s = s := by
  rw [home]
  cases t.parentOf s with
  | none => rfl
  | some p => simp [hblock]

theorem peak_raiseOwnPeak (hs : s < t.scopes.size) (n : Nat) :
    ((t.raiseOwnPeak s n).scope i).peak = if s = i then max (t.scope i).peak n else (t.scope i).peak := by
  rw [raiseOwnPeak, scope_modifyScope]
  by_cases hi : s = i
  · subst hi
    simp [hs]
  · simp [hi]

theorem peak_raisePeak_home (hs : s < t.scopes.size) (n : Nat) :
    ((t.raisePeak s n).scope (t.home s)).peak = max (t.scope (t.home s)).peak n := by
  fun_induction raisePeak t s n with
  | case1 t s p hlt hparent hblock ih =>
    have hraised := raised_raiseOwnPeak t s n
    have hne : s ≠ t.home p := Nat.ne_of_gt (Nat.lt_of_le_of_lt (home_le t p) hlt)
    rw [home_block hparent hblock]
    have hpeak := ih (by rw [hraised.size]; exact Nat.lt_trans hlt hs)
    rw [(hraised.alike p).home, peak_raiseOwnPeak hs, if_neg hne] at hpeak
    exact hpeak
  | case2 t s p hlt hparent hblock =>
    rw [home_of_not_block (by simpa using hblock), peak_raiseOwnPeak hs, if_pos rfl]
  | case3 t s hparent => rw [home_of_parentOf_none hparent, peak_raiseOwnPeak hs, if_pos rfl]

/-! ### Definitions -/

/-- Where a variable that is defined in a scope lives, and which scope counts it. -/
def owner (t : SymbolTable) (s : ScopeId) : Storage × ScopeId :=
  match t.enclosing s with
  | none => (.global, t.rootOf s)
  | some _ => (.slot, s)

/-- A definition before peaks are raised. -/
def enterName (t : SymbolTable) (s : ScopeId) (name : String) : SymbolTable :=
  ((t.modifyScope (t.owner s).2 fun scope => { scope with defined := scope.defined + 1 }).addSymbol s
    { name, storage := (t.owner s).1, index := t.nextIndex s }).2

variable (t : SymbolTable)

section

variable (s : ScopeId) (name : String)

theorem define_eq : t.define s name = (t.symbols.size, (t.enterName s name).raisePeak s (t.nextIndex s + 1)) := by
  cases t.enclosing s <;> rfl

theorem raised_define : Raised (t.enterName s name) (t.define s name).2 := by
  exact raised_raisePeak _ _ _

@[simp]
theorem define_fst : (t.define s name).1 = t.symbols.size := by
  rw [define_eq]

theorem size_scopes_enterName : (t.enterName s name).scopes.size = t.scopes.size := by
  simp [enterName, addSymbol]

@[simp]
theorem size_scopes_define : (t.define s name).2.scopes.size = t.scopes.size := by
  rw [(raised_define t s name).size, size_scopes_enterName]

theorem symbols_define : (t.define s name).2.symbols = t.symbols.push ⟨name, (t.owner s).1, t.nextIndex s, false⟩ :=
  (raised_define t s name).symbols

theorem symbol_define (id : SymbolId) :
    (t.define s name).2.symbol id =
      if id = t.symbols.size then ⟨name, (t.owner s).1, t.nextIndex s, false⟩ else t.symbol id := by
  rw [symbol, symbols_define]
  by_cases hid : id = t.symbols.size
  · simp [hid]
  · simp [symbol, Array.getElem?_push, hid]

theorem scope_enterName :
    (t.enterName s name).scope i = { t.scope i with
      names := if s = i ∧ i < t.scopes.size then (t.scope i).names.insert name t.symbols.size
        else (t.scope i).names
      defined := if (t.owner s).2 = i ∧ i < t.scopes.size then (t.scope i).defined + 1
        else (t.scope i).defined } := by
  rw [enterName, scope_addSymbol, scope_modifyScope, size_modifyScope]
  split <;> split <;> rfl

variable (i : ScopeId)

theorem alike_enterName : Alike t (t.enterName s name) i := fun j _ => by
  rw [scope_enterName]
  exact ⟨rfl, rfl⟩

theorem parent_define : ((t.define s name).2.scope i).parent = (t.scope i).parent := by
  rw [(raised_define t s name).parent, scope_enterName]

theorem isBlock_define : ((t.define s name).2.scope i).isBlock = (t.scope i).isBlock := by
  rw [(raised_define t s name).isBlock, scope_enterName]

theorem names_define :
    ((t.define s name).2.scope i).names =
      if s = i ∧ i < t.scopes.size then (t.scope i).names.insert name t.symbols.size
      else (t.scope i).names := by
  obtain ⟨peak, hscope, -⟩ := (raised_define t s name).scope i
  rw [hscope, scope_enterName]

theorem defined_define :
    ((t.define s name).2.scope i).defined =
      if (t.owner s).2 = i ∧ i < t.scopes.size then (t.scope i).defined + 1 else (t.scope i).defined := by
  obtain ⟨peak, hscope, -⟩ := (raised_define t s name).scope i
  rw [hscope, scope_enterName]

theorem captures_define : ((t.define s name).2.scope i).captures = (t.scope i).captures := by
  obtain ⟨peak, hscope, -⟩ := (raised_define t s name).scope i
  rw [hscope, scope_enterName]

theorem peak_le_define : (t.scope i).peak ≤ ((t.define s name).2.scope i).peak := by
  have h := (raised_define t s name).peak i
  rwa [scope_enterName] at h

theorem alike_define :
    Alike t (t.define s name).2 i := fun j _ => ⟨parent_define t s name j, isBlock_define t s name j⟩

end

theorem peak_define_home (hs : s < t.scopes.size) (name : String) :
    ((t.define s name).2.scope (t.home s)).peak = max (t.scope (t.home s)).peak (t.nextIndex s + 1) := by
  rw [define_eq, ← (alike_enterName t s name s).home]
  rw [peak_raisePeak_home (by rwa [size_scopes_enterName]), scope_enterName]

/-- The owner of the slots of a scope has room for what is defined there. -/
theorem nextIndex_lt_peak_define (hs : s < t.scopes.size) (name : String) :
    t.nextIndex s < ((t.define s name).2.scope (t.home s)).peak := by
  rw [peak_define_home t hs]
  exact Nat.lt_of_lt_of_le (Nat.lt_succ_self _) (Nat.le_max_right ..)

end SymbolTable

end ScriptEngine
