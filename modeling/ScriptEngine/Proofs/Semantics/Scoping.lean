import ScriptEngine.Proofs.Expression.Lowered
import ScriptEngine.Proofs.Semantics.Interpreter
import ScriptEngine.Proofs.Symbols
/-!
# Scopes and environments

A compilation keeps one table for all scopes and changes it as it goes; the interpreter has an
environment for each point of a program. `Stage.Sees` says that the scope at hand knows what an
environment knows. Main statement: compiling a statement of the main program leads from a stage that
sees an environment to one that sees the environment after the statement, and touches no scope around
it (`Lowers.sees`).
-/

namespace ScriptEngine

variable {w : Code} {env : Env} {e : Expr} {place : Place} {σ σ' : Stage} {sym : Symbol} {it : SymbolId}

variable {c : Code} {slot : Nat}

/-- What a symbol of the main program stands for. -/
def Symbol.place? (sym : Symbol) : Option Place :=
  match sym.storage with
  | .global => some (.slot sym.index)
  | .builtin => Builtin.all[sym.index]?.map .builtin
  | .slot | .captured => none

/-- Whether a place is a slot below a number, if it is one. -/
def Place.Below (n : Nat) : Place → Prop
  | .slot index => index < n
  | .builtin _ => True

theorem Place.Below.mono {n k : Nat} {p : Place} (h : p.Below n) (hle : n ≤ k) : p.Below k := by
  cases p with
  | slot index => exact Nat.lt_of_lt_of_le h hle
  | builtin b => trivial

namespace SymbolTable

/-- What a scope knows, given what is known around it. -/
structure Names (t : SymbolTable) (s : ScopeId) (outer places : String → Option Place) : Prop where
  inner : ∀ name id, (t.scope s).names.find? name = some id → id < t.symbols.size ∧
    ∃ place, (t.symbol id).place? = some place ∧ places name = some place ∧
      place.Below (t.scope root).defined
  outer : ∀ name, (t.scope s).names.find? name = none → places name = outer name

/-- What is known in a scope of the main program that is outside all functions. -/
inductive Sees (t : SymbolTable) : ScopeId → (String → Option Place) → Prop where
  | root (hparent : (t.scope root).parent = none) (hnames : t.Names root (fun _ => none) places) :
    Sees t root places
  | block (hparent : (t.scope s).parent = some p) (hlt : p < s) (hblock : (t.scope s).isBlock = true)
      (hdefined : (t.scope s).defined = 0) (houter : Sees t p outer) (hnames : t.Names s outer places) :
    Sees t s places

variable {t t' : SymbolTable} {s c : ScopeId} {name : String} {places outer : String → Option Place}

section

variable (h : t.Sees s places)
include h

theorem Sees.enclosing : t.enclosing s = none := by
  induction h with
  | root hparent _ => rw [SymbolTable.enclosing, parentOf_eq_none hparent]
  | block hparent hlt hblock _ _ _ ih =>
    rw [SymbolTable.enclosing, parentOf_eq_some hparent hlt]
    simp only [hblock, if_true, ih]

theorem Sees.rootOf : t.rootOf s = SymbolTable.root := by
  induction h with
  | root hparent _ => rw [SymbolTable.rootOf, parentOf_eq_none hparent]
  | block hparent hlt _ _ _ _ ih =>
    rw [SymbolTable.rootOf, parentOf_eq_some hparent hlt]
    exact ih

theorem Sees.home : t.home s = SymbolTable.root := by
  induction h with
  | root hparent _ => rw [SymbolTable.home, parentOf_eq_none hparent]
  | block hparent hlt hblock _ _ _ ih =>
    rw [SymbolTable.home, parentOf_eq_some hparent hlt]
    simp only [hblock, if_true, ih]

theorem Sees.nextIndex : t.nextIndex s = (t.scope SymbolTable.root).defined := by
  induction h with
  | root hparent _ => rw [SymbolTable.nextIndex, parentOf_eq_none hparent]
  | block hparent hlt hblock hdefined _ _ ih =>
    rw [SymbolTable.nextIndex, parentOf_eq_some hparent hlt]
    simp only [hblock, if_true, ih, hdefined, Nat.add_zero]

theorem Sees.owner : t.owner s = (.global, SymbolTable.root) := by
  rw [SymbolTable.owner, h.enclosing, h.rootOf]

end

theorem Sees.lt_size (hpos : 0 < t.scopes.size) (h : t.Sees s places) : s < t.scopes.size := by
  cases h with
  | root _ _ => exact hpos
  | block hparent _ _ _ _ _ => exact lt_size_of_parent hparent

theorem isVisible_of_place (h : sym.place? = some place) (fromInside : Bool) :
    isVisible sym fromInside = true := by
  cases hstorage : sym.storage with
  | slot => simp [Symbol.place?, hstorage] at h
  | global | builtin | captured => simp [isVisible, hstorage]

/-- Looking up a name finds what the environment knows, and changes nothing. -/
theorem Sees.resolveFrom (h : t.Sees s places) (name : String) (fromInside : Bool) :
    (t.resolveFrom s name fromInside = none ∧ places name = none) ∨
      ∃ x depth place, t.resolveFrom s name fromInside = some (x, depth, t) ∧ x < t.symbols.size ∧
        (t.symbol x).place? = some place ∧ places name = some place ∧
        place.Below (t.scope SymbolTable.root).defined := by
  induction h generalizing fromInside with
  | root hparent hnames =>
    rw [SymbolTable.resolveFrom]
    cases hfind : (t.scope SymbolTable.root).names.find? name with
    | none =>
      simp [parentOf_eq_none hparent, hnames.outer name hfind]
    | some x =>
      obtain ⟨hx, place, hplace, hname, hbelow⟩ := hnames.inner name x hfind
      right
      refine ⟨x, 0, place, ?_, hx, hplace, hname, hbelow⟩
      simp [Option.filter, isVisible_of_place hplace]
  | @block s p outer places hparent hlt hblock hdefined houter hnames ih =>
    rw [SymbolTable.resolveFrom]
    cases hfind : (t.scope s).names.find? name with
    | none =>
      rw [hnames.outer name hfind]
      rcases ih true with ⟨hnone, hname⟩ | ⟨x, depth, place, hsome, hx, hplace, hname, hbelow⟩
      · simp [parentOf_eq_some hparent hlt, hnone, hname]
      · right
        refine ⟨x, depth + 1, place, ?_, hx, hplace, hname, hbelow⟩
        simp [parentOf_eq_some hparent hlt, hsome, hblock]
    | some x =>
      obtain ⟨hx, place, hplace, hname, hbelow⟩ := hnames.inner name x hfind
      right
      refine ⟨x, 0, place, ?_, hx, hplace, hname, hbelow⟩
      simp [Option.filter, isVisible_of_place hplace]

/-- What a compilation inside a scope leaves alone. -/
structure Keeps (s : ScopeId) (t t' : SymbolTable) : Prop extends Later t t' where
  names : ∀ i < t.scopes.size, i ≠ s → (t'.scope i).names = (t.scope i).names
  defined : ∀ i < t.scopes.size, i ≠ SymbolTable.root → (t'.scope i).defined = (t.scope i).defined
  atRoot : (t.scope SymbolTable.root).defined ≤ (t'.scope SymbolTable.root).defined

theorem Keeps.refl (s : ScopeId) (t : SymbolTable) : Keeps s t t :=
  ⟨.refl t, fun _ _ _ => rfl, fun _ _ _ => rfl, Nat.le_refl _⟩

theorem Keeps.trans {t1 t2 t3 : SymbolTable} (h1 : Keeps s t1 t2) (h2 : Keeps s t2 t3) : Keeps s t1 t3 where
  toLater := h1.toLater.trans h2.toLater
  names i hi hne := (h2.names i (Nat.lt_of_lt_of_le hi h1.scopes) hne).trans (h1.names i hi hne)
  defined i hi hne := (h2.defined i (Nat.lt_of_lt_of_le hi h1.scopes) hne).trans (h1.defined i hi hne)
  atRoot := Nat.le_trans h1.atRoot h2.atRoot

theorem Later.place? (h : Later t t') {id : SymbolId} (hid : id < t.symbols.size) :
    (t'.symbol id).place? = (t.symbol id).place? := by
  rw [h.symbol id hid]
  rfl

theorem Names.keep {s : ScopeId} (hkeep : Keeps c t t') (hs : s < t.scopes.size) (hne : s ≠ c)
    (h : t.Names s outer places) : t'.Names s outer places where
  inner name id hfind := by
    rw [hkeep.names s hs hne] at hfind
    obtain ⟨hid, place, hplace, hname, hbelow⟩ := h.inner name id hfind
    refine ⟨Nat.lt_of_lt_of_le hid hkeep.symbols, place, ?_, hname, hbelow.mono hkeep.atRoot⟩
    rw [hkeep.place? hid, hplace]
  outer name hfind := by
    rw [hkeep.names s hs hne] at hfind
    exact h.outer name hfind

/-- What was known in a scope is still known after something further in was compiled. -/
theorem Sees.keep (hpos : 0 < t.scopes.size) (hkeep : Keeps c t t') (h : t.Sees s places)
    (hfar : s < c ∨ t.scopes.size ≤ c) : t'.Sees s places := by
  have hne : ∀ {i}, i < t.scopes.size → i < c ∨ t.scopes.size ≤ c → i ≠ c := fun hi hfar =>
    hfar.elim Nat.ne_of_lt fun hle => Nat.ne_of_lt (Nat.lt_of_lt_of_le hi hle)
  induction h with
  | root hparent hnames =>
    refine .root ?_ (hnames.keep hkeep hpos (hne hpos hfar))
    rw [hkeep.parent SymbolTable.root hpos, hparent]
  | @block s p outer places hparent hlt hblock hdefined houter hnames ih =>
    have hs := lt_size_of_parent hparent
    refine .block ?_ hlt ?_ ?_ (ih (hfar.imp_left (Nat.lt_trans hlt))) (hnames.keep hkeep hs (hne hs hfar))
    · rw [hkeep.parent s hs, hparent]
    · rw [hkeep.isBlock s hs, hblock]
    · rw [hkeep.defined s hs (Nat.ne_of_gt (Nat.zero_lt_of_lt hlt)), hdefined]

theorem keeps_addScope (s : ScopeId) (hpos : 0 < t.scopes.size) (inner : Scope) : Keeps s t (t.addScope inner).2 := by
  have hold : ∀ i < t.scopes.size, (t.addScope inner).2.scope i = t.scope i := fun i hi => by
    rw [scope_addScope, if_neg (Nat.ne_of_lt hi)]
  refine ⟨later_addScope t inner, fun i hi _ => by rw [hold i hi], fun i hi _ => by rw [hold i hi], ?_⟩
  exact Nat.le_of_eq (by rw [hold root hpos])

/-- A new block knows what is known around it. -/
theorem Sees.fork (hpos : 0 < t.scopes.size) (h : t.Sees s places) : (t.fork s true).2.Sees t.scopes.size places := by
  have hinner : (t.fork s true).2.scope t.scopes.size = { parent := some s, isBlock := true } := by
    rw [SymbolTable.fork, scope_addScope, if_pos rfl]
  have houter : (t.fork s true).2.Sees s places :=
    h.keep hpos (keeps_addScope t.scopes.size hpos _) (.inl (h.lt_size hpos))
  refine .block ?_ (h.lt_size hpos) ?_ ?_ houter ⟨?_, ?_⟩ <;> rw [hinner]
  · intro name id hfind
    cases hfind
  · intro name hfind
    rfl

theorem Sees.keeps_define (hpos : 0 < t.scopes.size) (h : t.Sees s places) (name : String) :
    Keeps s t (t.define s name).2 where
  toLater := later_define t s name
  names i _ hne := by
    rw [names_define, if_neg fun heq => hne heq.1.symm]
  defined i _ hne := by
    rw [defined_define, h.owner, if_neg fun heq => hne heq.1.symm]
  atRoot := by
    rw [defined_define, h.owner, if_pos ⟨rfl, hpos⟩]
    exact Nat.le_succ _

theorem Sees.defined_define (hpos : 0 < t.scopes.size) (h : t.Sees s places) (name : String) :
    ((t.define s name).2.scope SymbolTable.root).defined = (t.scope SymbolTable.root).defined + 1 := by
  rw [SymbolTable.defined_define, h.owner, if_pos ⟨rfl, hpos⟩]

/-- The symbol of a new variable. -/
theorem Sees.symbol_define (h : t.Sees s places) (name : String) :
    (t.define s name).2.symbol t.symbols.size =
      ⟨name, .global, (t.scope SymbolTable.root).defined, false⟩ := by
  rw [SymbolTable.symbol_define, if_pos rfl, h.owner, h.nextIndex]

theorem Names.define (hpos : 0 < t.scopes.size) (hsees : t.Sees s places) (h : t.Names s outer places)
    (name : String) :
    (t.define s name).2.Names s outer
      fun x => if x = name then some (.slot (t.scope SymbolTable.root).defined) else places x where
  inner x id hfind := by
    rw [names_define, if_pos ⟨rfl, hsees.lt_size hpos⟩, Dict.find?_insert] at hfind
    have hkeep := hsees.keeps_define hpos name
    by_cases hx : name = x
    · subst hx
      rw [if_pos rfl, Option.some.injEq] at hfind
      subst hfind
      refine ⟨?_, .slot (t.scope SymbolTable.root).defined, ?_, if_pos rfl, ?_⟩
      · rw [symbols_define, Array.size_push]
        exact Nat.lt_succ_self _
      · rw [hsees.symbol_define]
        rfl
      · rw [hsees.defined_define hpos]
        exact Nat.lt_succ_self _
    · rw [if_neg hx] at hfind
      obtain ⟨hid, place, hplace, hname, hbelow⟩ := h.inner x id hfind
      refine ⟨Nat.lt_of_lt_of_le hid hkeep.symbols, place, ?_, ?_, hbelow.mono hkeep.atRoot⟩
      · rw [hkeep.place? hid, hplace]
      · rw [if_neg (Ne.symm hx), hname]
  outer x hfind := by
    rw [names_define, if_pos ⟨rfl, hsees.lt_size hpos⟩, Dict.find?_insert] at hfind
    by_cases hx : name = x
    · rw [if_pos hx] at hfind
      cases hfind
    · rw [if_neg hx] at hfind
      rw [if_neg (Ne.symm hx)]
      exact h.outer x hfind

/-- A definition makes its name known. -/
theorem Sees.define (hpos : 0 < t.scopes.size) (h : t.Sees s places) (name : String) :
    (t.define s name).2.Sees s
      fun x => if x = name then some (.slot (t.scope SymbolTable.root).defined) else places x := by
  have hkeep := h.keeps_define hpos name
  cases h with
  | root hparent hnames =>
    refine .root ?_ (hnames.define hpos (.root hparent hnames) name)
    rw [parent_define, hparent]
  | block hparent hlt hblock hdefined houter hnames =>
    have hs := lt_size_of_parent hparent
    refine .block ?_ hlt ?_ ?_ (houter.keep hpos hkeep (.inl hlt))
      (hnames.define hpos (.block hparent hlt hblock hdefined houter hnames) name)
    · rw [parent_define, hparent]
    · rw [isBlock_define, hblock]
    · rw [hkeep.defined s hs (Nat.ne_of_gt (Nat.zero_lt_of_lt hlt)), hdefined]

end SymbolTable

/-! ### Stages -/

open SymbolTable (Keeps)

/-- The scope at hand knows what an environment knows. -/
structure Stage.Sees (σ : Stage) (env : Env) : Prop where
  nonempty : SymbolTable.root < σ.symbols.scopes.size
  places : σ.symbols.Sees σ.scope env.places
  next : (σ.symbols.scope SymbolTable.root).defined = env.next
  peak : env.next ≤ σ.symbols.slots SymbolTable.root

/-- A stage comes after another one in the same scope, and sees an environment. -/
structure Stage.Follows (σ σ' : Stage) (env : Env) : Prop where
  sees : σ'.Sees env
  scope : σ'.scope = σ.scope
  keeps : Keeps σ.scope σ.symbols σ'.symbols

/-- A symbol that stands for a place. -/
structure Stage.Stands (σ : Stage) (x : SymbolId) (place : Place) : Prop where
  known : x < σ.symbols.symbols.size
  place : (σ.symbol x).place? = some place

theorem Symbol.of_place_slot (h : sym.place? = some (.slot slot)) :
    sym.storage = .global ∧ sym.index = slot := by
  cases hstorage : sym.storage with
  | slot | captured | builtin => simp [Symbol.place?, hstorage] at h
  | global => simpa [Symbol.place?, hstorage] using h

theorem Symbol.of_place_builtin {b : Builtin} (h : sym.place? = some (.builtin b)) :
    sym.storage = .builtin ∧ Builtin.all[sym.index]? = some b := by
  cases hstorage : sym.storage with
  | slot | captured | global => simp [Symbol.place?, hstorage] at h
  | builtin => simpa [Symbol.place?, hstorage] using h

namespace Stage

variable {σ σ' σ1 σ2 : Stage} {env env' env1 env2 : Env} {name : String} {pos : Pos} {x : SymbolId}
  {depth n : Nat}

theorem Sees.follows (h : σ.Sees env) (hsymbols : σ'.symbols = σ.symbols) (hscope : σ'.scope = σ.scope) :
    σ.Follows σ' env where
  sees := ⟨hsymbols ▸ h.nonempty, by rw [hsymbols, hscope]; exact h.places, by rw [hsymbols, h.next],
    by rw [hsymbols]; exact h.peak⟩
  scope := hscope
  keeps := hsymbols ▸ Keeps.refl _ _

theorem Sees.refl (h : σ.Sees env) : σ.Follows σ env := h.follows rfl rfl

theorem Sees.addConstant (h : σ.Sees env) (v : Value) : σ.Follows (σ.addConstant v) env := h.follows rfl rfl

theorem Follows.trans (h1 : σ.Follows σ1 env1) (h2 : σ1.Follows σ2 env2) : σ.Follows σ2 env2 where
  sees := h2.sees
  scope := h2.scope.trans h1.scope
  keeps := h1.keeps.trans (h1.scope ▸ h2.keeps)

theorem Follows.next_le (hsees : σ.Sees env) (h : σ.Follows σ' env') : env.next ≤ env'.next := by
  rw [← hsees.next, ← h.sees.next]
  exact h.keeps.atRoot

section

variable (h : σ.Sees env)
include h

theorem Sees.resolve (hresolve : σ.resolve name = some (x, depth, σ1)) :
    σ1 = σ ∧ ∃ place, σ.Stands x place ∧ env.places name = some place ∧ place.Below env.next := by
  rw [Stage.resolve, SymbolTable.resolve] at hresolve
  rcases h.places.resolveFrom name false with ⟨hnone, -⟩ | ⟨x', depth', place, hsome, hx, hplace, hname, hbelow⟩
  · rw [hnone] at hresolve
    cases hresolve
  · rw [hsome] at hresolve
    cases hresolve
    rw [h.next] at hbelow
    exact ⟨rfl, place, ⟨hx, hplace⟩, hname, hbelow⟩

theorem Sees.lookedUp (name : String) : σ.lookedUp name = σ := by
  rw [Stage.lookedUp]
  split
  · next hresolve => exact (h.resolve hresolve).1
  · rfl

theorem Sees.define (name : String) : σ.Follows (σ.define name).2 (env.define name) where
  sees :=
    { nonempty := by
        show _ < (σ.symbols.define σ.scope name).2.scopes.size
        rw [SymbolTable.size_scopes_define]
        exact h.nonempty
      places := by
        have hsees := h.places.define h.nonempty name
        rw [h.next] at hsees
        exact hsees
      next := by
        show ((σ.symbols.define σ.scope name).2.scope SymbolTable.root).defined = env.next + 1
        rw [h.places.defined_define h.nonempty, h.next]
      peak := by
        have hpeak := σ.symbols.nextIndex_lt_peak_define (h.places.lt_size h.nonempty) name
        rw [h.places.nextIndex, h.places.home, h.next] at hpeak
        exact hpeak }
  scope := rfl
  keeps := h.places.keeps_define h.nonempty name

theorem Sees.symbol_define (name : String) :
    (σ.define name).2.symbol (σ.define name).1 = ⟨name, .global, env.next, false⟩ := by
  show (σ.symbols.define σ.scope name).2.symbol (σ.symbols.define σ.scope name).1 = _
  rw [SymbolTable.define_fst, h.places.symbol_define, h.next]

theorem Sees.enter : (σ.enter true).Sees env where
  nonempty := by
    show 0 < (σ.symbols.fork σ.scope true).2.scopes.size
    simp [SymbolTable.fork, SymbolTable.addScope]
  places := h.places.fork h.nonempty
  next := by
    show ((σ.symbols.fork σ.scope true).2.scope SymbolTable.root).defined = env.next
    rw [SymbolTable.fork, SymbolTable.scope_addScope, if_neg (Nat.ne_of_lt h.nonempty), h.next]
  peak := by
    show env.next ≤ ((σ.symbols.fork σ.scope true).2.scope SymbolTable.root).peak
    rw [SymbolTable.fork, SymbolTable.scope_addScope, if_neg (Nat.ne_of_lt h.nonempty)]
    exact h.peak

/-- Back in the scope around a block. -/
theorem Sees.leaving (hinner : (σ.enter true).Follows σ' env') :
    σ.Follows (σ'.returnTo σ.scope) (env.leaving env') := by
  have hfork := SymbolTable.keeps_addScope σ.symbols.scopes.size h.nonempty
    { parent := some σ.scope, isBlock := true }
  have hkeep : Keeps σ.symbols.scopes.size σ.symbols σ'.symbols := hfork.trans hinner.keeps
  refine ⟨⟨hinner.sees.nonempty, ?_, hinner.sees.next, hinner.sees.peak⟩, rfl, ?_⟩
  · exact h.places.keep h.nonempty hkeep (.inr (Nat.le_refl _))
  · exact { hkeep with names := fun i hi _ => hkeep.names i hi (Nat.ne_of_lt hi) }

end

/-! ### Variables of the main program -/

/-- Stores the value on the stack in a global variable, or in a part of it. -/
def storeGlobal (pos : Pos) (slot selectors : Nat) : Code :=
  if selectors = 0 then .instr pos .setGlobal [slot] else .instr pos .setSelGlobal [slot, selectors]

theorem Stands.follows (h : σ.Stands x place) (hfollows : σ.Follows σ' env) : σ'.Stands x place := by
  refine ⟨Nat.lt_of_lt_of_le h.known hfollows.keeps.symbols, ?_⟩
  rw [Stage.symbol, hfollows.keeps.place? h.known]
  exact h.place

theorem Stands.load_slot (h : σ.Stands x (.slot slot)) (pos : Pos) :
    Code.load pos (σ.symbol x) = .instr pos .getGlobal [slot] := by
  obtain ⟨hstorage, hindex⟩ := Symbol.of_place_slot h.place
  rw [Code.load, hstorage, hindex]
  rfl

theorem Stands.fits (h : σ.Stands x (.slot slot)) (hfits : (σ.symbol x).Fits) : slot ≤ CompileM.maxWide := by
  obtain ⟨hstorage, hindex⟩ := Symbol.of_place_slot h.place
  rwa [Symbol.Fits, if_pos hstorage, hindex] at hfits

theorem Stands.store {isDefine : Bool} (h : σ.Stands x place)
    (hstore : σ.store pos isDefine n x = some (w, σ')) :
    ∃ slot, place = .slot slot ∧ slot ≤ CompileM.maxWide ∧ w = storeGlobal pos slot n ∧ σ' = σ := by
  rw [Stage.store] at hstore
  split at hstore
  · next hfits =>
    rw [storeIn] at hstore
    cases place with
    | builtin b =>
      rw [(Symbol.of_place_builtin h.place).1] at hstore
      cases hstore
    | slot slot =>
      obtain ⟨hstorage, hindex⟩ := Symbol.of_place_slot h.place
      refine ⟨slot, rfl, h.fits hfits, ?_⟩
      rw [hstorage, hindex] at hstore
      by_cases hn : n = 0
      · simp only [hn, BEq.rfl, Option.some.injEq, Prod.mk.injEq] at hstore
        rw [storeGlobal, if_pos hn]
        exact ⟨hstore.1.symm, hstore.2.symm⟩
      · simp only [beq_eq_false_iff_ne.2 hn, Option.some.injEq, Prod.mk.injEq] at hstore
        rw [storeGlobal, if_neg hn]
        exact ⟨hstore.1.symm, hstore.2.symm⟩
  · cases hstore

theorem Stands.bind (h : σ.Stands x (.slot slot)) (hbind : σ.bind pos x = some (w, σ')) :
    slot ≤ CompileM.maxWide ∧ w = storeGlobal pos slot 0 ∧ σ' = σ := by
  obtain ⟨hstorage, hindex⟩ := Symbol.of_place_slot h.place
  simp only [Stage.bind, if_pos hstorage, hindex] at hbind
  split at hbind
  · next hfits =>
    cases hbind
    exact ⟨h.fits hfits, rfl, rfl⟩
  · cases hbind

/-- Binds a name to what the iterator in a global variable stands at, unless the name is a blank. -/
def itemCode (pos : Pos) (it : Nat) (op : Opcode) (x : Ident) (slot : Nat) : Code :=
  if x.name ≠ "_" then
    (Code.instr pos .getGlobal [it]).seq ((Code.instr pos op []).seq (storeGlobal x.pos slot 0))
  else .nop

/-- Binds the names of a loop over the items of the iterator in a global variable. -/
def itemsCode (pos : Pos) (it : Nat) (env : Env) (key : Ident) : Option Ident → Code
  | none => itemCode pos it .iterValue key env.next
  | some value =>
    (itemCode pos it .iterKey key env.next).seq
      (itemCode pos it .iterValue value (env.bindItem key).next)

theorem Sees.stands_define (h : σ.Sees env) (name : String) :
    (σ.define name).2.Stands (σ.define name).1 (.slot env.next) := by
  refine ⟨?_, ?_⟩
  · show (σ.symbols.define σ.scope name).1 < (σ.symbols.define σ.scope name).2.symbols.size
    rw [SymbolTable.symbols_define, Array.size_push]
    exact Nat.lt_succ_self _
  · rw [h.symbol_define name]
    rfl

theorem Sees.bindItem {op : Opcode} {i : Ident} (h : σ.Sees env)
    (hit : σ.Stands it (.slot slot)) (hbind : σ.bindItem pos it op i = some (c, σ')) :
    σ.Follows σ' (env.bindItem i) ∧ c = itemCode pos slot op i env.next := by
  rw [Env.bindItem, itemCode]
  obtain ⟨hname, rfl, rfl⟩ | ⟨hname, -, w, hstore, rfl⟩ := bindItem_cases hbind
  · have hblank := Decidable.not_not.2 hname
    rw [if_neg hblank, if_neg hblank]
    exact ⟨h.refl, rfl⟩
  · rw [if_pos hname, if_pos hname]
    have hfollows := h.define i.name
    obtain ⟨-, rfl, rfl⟩ := (h.stands_define i.name).bind hstore
    refine ⟨hfollows, ?_⟩
    rw [(hit.follows hfollows).load_slot]

theorem Sees.bindItems {key : Ident} {value : Option Ident}
    (h : σ.Sees env) (hit : σ.Stands it (.slot slot)) (hbind : σ.bindItems pos it key value = some (c, σ')) :
    σ.Follows σ' (env.bindItems key value) ∧ c = itemsCode pos slot env key value := by
  cases value with
  | none => exact h.bindItem hit hbind
  | some value =>
    obtain ⟨a, σ1, b, hkey, hvalue, rfl⟩ := bindItems_some hbind
    obtain ⟨hfollows, rfl⟩ := h.bindItem hit hkey
    obtain ⟨hfollows', rfl⟩ := hfollows.sees.bindItem (hit.follows hfollows) hvalue
    exact ⟨hfollows.trans hfollows', rfl⟩

end Stage

/-! ### Statements -/

/-- Whether a piece of a syntax tree consists of statements of a program without functions. -/
def Phrase.isStructured : Phrase → Bool
  | .condition e => Expr.boundFirstOrder e
  | .stmt s => s.isStructured
  | .optional s => Stmt.optionalStructured s
  | .stmts ss => Stmt.allStructured ss
  | .block b => b.isStructured
  | _ => false

/-- The environment of what follows a piece of a syntax tree. -/
def Phrase.after (env : Env) : Phrase → Env
  | .stmt s => s.after env
  | .optional s => Stmt.afterOptional env s
  | .stmts ss => Stmt.afterAll env ss
  | .block b => b.after env
  | _ => env

theorem Phrase.isStructured_assign {pos : Pos} {target value : Expr} {op : AssignOp} :
    (Phrase.stmt (.assign pos [target] [value] op)).isStructured = true ↔
      target.isShortTarget = true ∧ value.isFirstOrder = true := by
  simp [Phrase.isStructured, Stmt.isStructured, Expr.allFirstOrder]

theorem Expr.isFirstOrder_of_isShortTarget (h : e.isShortTarget = true) :
    e.isFirstOrder = true := (Bool.and_eq_true_iff.1 h).1

theorem Expr.not_isFirstOrder_of_isFunction (h : e.isFunction = true) : ¬e.isFirstOrder = true := by
  cases e with
  | func => simp [Expr.isFirstOrder]
  | _ => cases h

theorem Stage.Later.follows (h : σ.Later σ') (hsees : σ.Sees env) : σ.Follows σ' env := by
  induction h with
  | refl => exact hsees.refl
  | resolve _ hresolve ih =>
    obtain ⟨rfl, -⟩ := ih.sees.resolve hresolve
    exact ih
  | addConstant _ _ ih => exact ih.trans (ih.sees.addConstant _)

/-- Expressions define nothing. -/
theorem Lowers.follows {o : CompileOptions} {ctx : Context} {φ : Phrase}
    (h : Lowers o ctx φ σ c σ') (hφ : φ.isFirstOrder = true) (hsees : σ.Sees env) :
    σ.Follows σ' env := (h.later hφ).follows hsees

end ScriptEngine
