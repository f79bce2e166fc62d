import ScriptEngine.Proofs.Symbols
/-!
# Looking names up

Looking a name up may capture variables on the way, which adds symbols and changes what the name
stands for in some scopes. Main statements: other names mean what they meant (`resolveFrom_spec`), and
the name itself means the same when it is looked up again, also after others were (`Finds.keep`).
-/

namespace ScriptEngine

namespace SymbolTable

variable {t t' : SymbolTable} {s i : ScopeId} {name other : String} {fromInside : Bool} {id : SymbolId}

/-- Every name stands for a symbol of that name. -/
def Closed (t : SymbolTable) : Prop :=
  ∀ s name id, (t.scope s).names.find? name = some id → id < t.symbols.size ∧ (t.symbol id).name = name

/-! ### Captures -/

theorem scope_capture (t : SymbolTable) (s : ScopeId) (outer : SymbolId) (i : ScopeId) :
    (t.capture s outer).2.scope i =
      if s = i ∧ i < t.scopes.size then { t.scope i with
        captures := (t.scope i).captures.push outer
        names := (t.scope i).names.insert (t.symbol outer).name t.symbols.size }
      else t.scope i := by
  rw [capture, scope_addSymbol, scope_modifyScope, size_modifyScope]
  split <;> rfl

theorem symbol_capture (t : SymbolTable) (s : ScopeId) (outer id : SymbolId) :
    (t.capture s outer).2.symbol id =
      if id = t.symbols.size then ⟨(t.symbol outer).name, .captured, (t.scope s).captures.size, false⟩
      else t.symbol id := by
  rw [capture, symbol_addSymbol]
  rfl

@[simp]
theorem size_symbols_capture (t : SymbolTable) (s : ScopeId) (outer : SymbolId) :
    (t.capture s outer).2.symbols.size = t.symbols.size + 1 := by
  simp [capture, addSymbol]

/-! ### Tables in which every name stands for a symbol -/

section

variable (h : t.Closed)
include h

theorem Closed.addSymbol (s : ScopeId) (sym : Symbol) : (t.addSymbol s sym).2.Closed := by
  intro i name id hfind
  have hsize : (t.addSymbol s sym).2.symbols.size = t.symbols.size + 1 := Array.size_push _
  rw [hsize, symbol_addSymbol]
  rw [scope_addSymbol] at hfind
  split at hfind
  · rw [Dict.find?_insert] at hfind
    split at hfind
    · next heq =>
      cases hfind
      exact ⟨Nat.lt_succ_self _, by rw [if_pos rfl, heq]⟩
    · obtain ⟨hlt, hname⟩ := h i name id hfind
      exact ⟨Nat.lt_succ_of_lt hlt, by rw [if_neg (Nat.ne_of_lt hlt), hname]⟩
  · obtain ⟨hlt, hname⟩ := h i name id hfind
    exact ⟨Nat.lt_succ_of_lt hlt, by rw [if_neg (Nat.ne_of_lt hlt), hname]⟩

/-- What else a scope has does not matter. -/
theorem Closed.of_names (hsymbols : t'.symbols = t.symbols)
    (hnames : ∀ i, (t'.scope i).names = (t.scope i).names) : t'.Closed := by
  intro i name id hfind
  rw [hnames] at hfind
  rw [symbol, hsymbols]
  exact h i name id hfind

theorem Closed.modifyScope (s : ScopeId) (f : Scope → Scope) (hf : ∀ c, (f c).names = c.names) :
    (t.modifyScope s f).Closed := by
  refine h.of_names rfl fun i => ?_
  rw [scope_modifyScope]
  split
  · exact hf _
  · rfl

theorem Closed.capture (s : ScopeId) (outer : SymbolId) : (t.capture s outer).2.Closed := by
  apply Closed.addSymbol
  apply h.modifyScope
  intro c
  rfl

theorem Closed.define (s : ScopeId) (name : String) : (t.define s name).2.Closed := by
  have hraised := raised_define t s name
  have hentered : (t.enterName s name).Closed := by
    apply Closed.addSymbol
    apply h.modifyScope
    intro c
    rfl
  refine hentered.of_names hraised.symbols fun i => ?_
  obtain ⟨peak, hscope, -⟩ := hraised.scope i
  rw [hscope]

theorem Closed.markAssigned (id : SymbolId) : (t.markAssigned id).Closed := by
  intro i name x hfind
  obtain ⟨hlt, hname⟩ := h i name x hfind
  have hsize : (t.markAssigned id).symbols.size = t.symbols.size := by simp [SymbolTable.markAssigned]
  refine ⟨hsize ▸ hlt, ?_⟩
  rw [← hname]
  simp only [symbol, SymbolTable.markAssigned, Array.getD_eq_getD_getElem?, Array.getElem?_modify]
  split
  · cases t.symbols[x]? <;> rfl
  · rfl

theorem Closed.fork (parent : ScopeId) (isBlock : Bool) : (t.fork parent isBlock).2.Closed := by
  intro i name id hfind
  rw [SymbolTable.fork, scope_addScope] at hfind
  split at hfind
  · cases hfind
  · exact h i name id hfind

end

/-! ### What a lookup changes -/

/-- Symbols are added, and scopes stay where they are. -/
structure Grows (t t' : SymbolTable) : Prop where
  scopes : t'.scopes.size = t.scopes.size
  parent : ∀ i, (t'.scope i).parent = (t.scope i).parent
  isBlock : ∀ i, (t'.scope i).isBlock = (t.scope i).isBlock
  size : t.symbols.size ≤ t'.symbols.size
  symbol : ∀ id < t.symbols.size, t'.symbol id = t.symbol id

theorem Grows.refl (t : SymbolTable) : Grows t t :=
  ⟨rfl, fun _ => rfl, fun _ => rfl, Nat.le_refl _, fun _ _ => rfl⟩

theorem Grows.trans {t1 t2 t3 : SymbolTable} (h : Grows t1 t2) (h' : Grows t2 t3) : Grows t1 t3 where
  scopes := h'.scopes.trans h.scopes
  parent i := (h'.parent i).trans (h.parent i)
  isBlock i := (h'.isBlock i).trans (h.isBlock i)
  size := Nat.le_trans h.size h'.size
  symbol id hid := (h'.symbol id (Nat.lt_of_lt_of_le hid h.size)).trans (h.symbol id hid)

theorem Grows.parentOf (h : Grows t t') (s : ScopeId) : t'.parentOf s = t.parentOf s := by
  rw [SymbolTable.parentOf, SymbolTable.parentOf, h.parent s]

theorem grows_capture (t : SymbolTable) (s : ScopeId) (outer : SymbolId) : Grows t (t.capture s outer).2 where
  scopes := by simp [capture, addSymbol]
  parent i := by
    rw [scope_capture]
    split <;> rfl
  isBlock i := by
    rw [scope_capture]
    split <;> rfl
  size := by simp
  symbol id hid := by rw [symbol_capture, if_neg (Nat.ne_of_lt hid)]

theorem lt_size_of_parentOf {p : { p : ScopeId // p < s }} (h : t.parentOf s = some p) : s < t.scopes.size := by
  rw [SymbolTable.parentOf] at h
  split at h
  · next hparent => exact lt_size_of_parent hparent
  · cases h

/-- What a name stands for in a scope, if it is seen from there. -/
def here (t : SymbolTable) (s : ScopeId) (name : String) (fromInside : Bool) : Option SymbolId :=
  ((t.scope s).names.find? name).filter fun id => isVisible (t.symbol id) fromInside

theorem here_eq_some (h : t.here s name fromInside = some id) : (t.scope s).names.find? name = some id :=
  (Option.filter_eq_some_iff.1 h).1

theorem Grows.here (h : Grows t t') (hclosed : t.Closed)
    (hnames : (t'.scope s).names.find? name = (t.scope s).names.find? name) (fromInside : Bool) :
    t'.here s name fromInside = t.here s name fromInside := by
  rw [SymbolTable.here, SymbolTable.here, hnames]
  cases hfind : (t.scope s).names.find? name with
  | none => rfl
  | some id => simp only [Option.filter, h.symbol id (hclosed s name id hfind).1]

/-- Whether what is found outside a scope is used there as it is, and not captured. -/
def passes (t : SymbolTable) (s : ScopeId) (id : SymbolId) : Bool :=
  (t.scope s).isBlock || (t.symbol id).storage == .global || (t.symbol id).storage == .builtin

/-- What is found outside a scope, as seen from the scope. -/
def bring (t : SymbolTable) (s : ScopeId) (id : SymbolId) : SymbolId × SymbolTable :=
  if t.passes s id then (id, t) else t.capture s id

theorem resolveFrom_eq (t : SymbolTable) (s : ScopeId) (name : String) (fromInside : Bool) :
    t.resolveFrom s name fromInside =
      match t.here s name fromInside, t.parentOf s with
      | some id, _ => some (id, 0, t)
      | none, none => none
      | none, some p => (t.resolveFrom p.1 name true).map fun r =>
        ((r.2.2.bring s r.1).1, r.2.1 + 1, (r.2.2.bring s r.1).2) := by
  rw [resolveFrom, ← here.eq_def]
  cases t.here s name fromInside with
  | some id => rfl
  | none =>
    cases t.parentOf s with
    | none => rfl
    | some p =>
      dsimp only
      cases t.resolveFrom p.1 name true with
      | none => rfl
      | some r =>
        rw [Option.map_some, bring, passes]
        dsimp only
        split <;> rfl

/-- A name is known in the scope, or found outside and either used as it is or captured. -/
theorem resolveFrom_cases {depth : Nat} (h : t.resolveFrom s name fromInside = some (id, depth, t')) :
    t.here s name fromInside = some id ∧ t' = t ∨
      ∃ p, ∃ hlt : p < s, t.here s name fromInside = none ∧ t.parentOf s = some ⟨p, hlt⟩ ∧ ∃ found d t1,
        t.resolveFrom p name true = some (found, d, t1) ∧
          (t1.passes s found = true ∧ id = found ∧ t' = t1 ∨
            t1.passes s found = false ∧ id = t1.symbols.size ∧ t' = (t1.capture s found).2) := by
  rw [resolveFrom_eq] at h
  split at h
  · next hhere =>
    cases h
    exact .inl ⟨hhere, rfl⟩
  · cases h
  · next p hhere hparent =>
    obtain ⟨⟨found, d, t1⟩, hfound, heq⟩ := Option.map_eq_some_iff.1 h
    refine .inr ⟨p.1, p.2, hhere, hparent, found, d, t1, hfound, ?_⟩
    dsimp only [bring] at heq
    split at heq <;> cases heq
    · next hpasses => exact .inl ⟨hpasses, rfl, rfl⟩
    · next hpasses => exact .inr ⟨by simpa using hpasses, rfl, rfl⟩

/-- Looking a name up finds a symbol and changes nothing. -/
def Finds (t : SymbolTable) (s : ScopeId) (name : String) (fromInside : Bool) (id : SymbolId) : Prop :=
  ∃ depth, t.resolveFrom s name fromInside = some (id, depth, t)

theorem Finds.of_here (h : t.here s name fromInside = some id) : t.Finds s name fromInside id := by
  refine ⟨0, ?_⟩
  rw [resolveFrom_eq, h]

theorem Finds.of_parent {p : ScopeId} (hhere : t.here s name fromInside = none) {hlt : p < s}
    (hparent : t.parentOf s = some ⟨p, hlt⟩) (hpasses : t.passes s id = true) (h : t.Finds p name true id) :
    t.Finds s name fromInside id := by
  obtain ⟨depth, h⟩ := h
  refine ⟨depth + 1, ?_⟩
  rw [resolveFrom_eq, hhere, hparent]
  simp only [h, Option.map_some, bring, hpasses, if_true]

/-- What is true after a name was looked up from a scope. -/
structure Looked (t : SymbolTable) (s : ScopeId) (name : String) (fromInside : Bool) (id : SymbolId)
    (t' : SymbolTable) : Prop where
  grows : Grows t t'
  closed : t'.Closed
  /-- Other names mean what they meant. -/
  others : ∀ other, other ≠ name → ∀ i, (t'.scope i).names.find? other = (t.scope i).names.find? other
  /-- Scopes further in are not touched. -/
  inner : ∀ i, s < i → t'.scope i = t.scope i
  known : id < t'.symbols.size
  named : (t'.symbol id).name = name
  again : t'.Finds s name fromInside id

/-- A capture makes the name known in the scope. -/
theorem here_capture (hs : s < t.scopes.size) (outer : SymbolId) (fromInside : Bool) :
    (t.capture s outer).2.here s (t.symbol outer).name fromInside = some (t.capture s outer).1 := by
  have hfind : ((t.capture s outer).2.scope s).names.find? (t.symbol outer).name = some t.symbols.size := by
    rw [scope_capture, if_pos ⟨rfl, hs⟩, Dict.find?_insert, if_pos rfl]
  rw [here, hfind, Option.filter_some, symbol_capture, if_pos rfl]
  rfl

theorem resolveFrom_spec (hclosed : t.Closed) {depth : Nat}
    (h : t.resolveFrom s name fromInside = some (id, depth, t')) : t.Looked s name fromInside id t' := by
  induction s using Nat.strongRecOn generalizing fromInside id depth t' with
  | ind s ih =>
    rcases resolveFrom_cases h with ⟨hhere, rfl⟩ | ⟨p, hlt, hhere, hparent, found, d, t1, hfound, hcases⟩
    · obtain ⟨hknown, hname⟩ := hclosed s name _ (here_eq_some hhere)
      exact ⟨Grows.refl _, hclosed, fun _ _ _ => rfl, fun _ _ => rfl, hknown, hname, .of_here hhere⟩
    · have hp := ih p hlt hfound
      have hs : s < t1.scopes.size := by
        rw [hp.grows.scopes]
        exact lt_size_of_parentOf hparent
      have hhere1 : t1.here s name fromInside = none := by
        rw [hp.grows.here hclosed (by rw [hp.inner s hlt]), hhere]
      rcases hcases with ⟨hpasses, rfl, rfl⟩ | ⟨-, rfl, rfl⟩
      · exact { hp with
          inner := fun i hi => hp.inner i (Nat.lt_trans hlt hi)
          again := .of_parent hhere1 (by rw [hp.grows.parentOf, hparent]) hpasses hp.again }
      · refine ⟨hp.grows.trans (grows_capture t1 s found), hp.closed.capture s found, fun other hne i => ?_,
          fun i hi => ?_, ?_, ?_, ?_⟩
        · rw [scope_capture]
          split
          · rw [Dict.find?_insert, if_neg (fun heq => hne (heq.symm.trans hp.named)), hp.others other hne i]
          · exact hp.others other hne i
        · rw [scope_capture, if_neg (fun heq => Nat.ne_of_lt hi heq.1), hp.inner i (Nat.lt_trans hlt hi)]
        · rw [size_symbols_capture]
          exact Nat.lt_succ_self _
        · rw [symbol_capture, if_pos rfl, hp.named]
        · have hcaptured := here_capture hs found fromInside
          rw [hp.named] at hcaptured
          exact .of_here hcaptured

theorem Finds.known (h : t.Finds s name fromInside id) (hclosed : t.Closed) : id < t.symbols.size := by
  obtain ⟨depth, h⟩ := h
  exact (resolveFrom_spec hclosed h).known

theorem Finds.cases (h : t.Finds s name fromInside id) (hclosed : t.Closed) :
    t.here s name fromInside = some id ∨ ∃ p, ∃ hlt : p < s, t.here s name fromInside = none ∧
      t.parentOf s = some ⟨p, hlt⟩ ∧ t.passes s id = true ∧ t.Finds p name true id := by
  obtain ⟨depth, h⟩ := h
  rcases resolveFrom_cases h with ⟨hhere, -⟩ | ⟨p, hlt, hhere, hparent, found, d, t1, hfound, hcases⟩
  · exact .inl hhere
  · rcases hcases with ⟨hpasses, rfl, rfl⟩ | ⟨-, -, hsame⟩
    · exact .inr ⟨p, hlt, hhere, hparent, hpasses, d, hfound⟩
    · -- A capture adds a symbol, and here nothing was added.
      have hmore := (resolveFrom_spec hclosed hfound).grows.size
      rw [hsame, size_symbols_capture] at hmore
      omega

/-- What was found is found after another name was looked up. -/
theorem Finds.keep (h : t.Finds s name fromInside id) (hclosed : t.Closed) (hgrows : Grows t t')
    (hnames : ∀ i, (t'.scope i).names.find? name = (t.scope i).names.find? name) : t'.Finds s name fromInside id := by
  induction s using Nat.strongRecOn generalizing fromInside with
  | ind s ih =>
    have hsame := hgrows.here hclosed (hnames s) fromInside
    rcases h.cases hclosed with hhere | ⟨p, hlt, hhere, hparent, hpasses, hfinds⟩
    · exact .of_here (hsame.trans hhere)
    · refine .of_parent (hsame.trans hhere) (by rw [hgrows.parentOf, hparent]) ?_ (ih p hlt hfinds)
      rw [passes, hgrows.isBlock s, hgrows.symbol _ (hfinds.known hclosed)]
      exact hpasses

end SymbolTable

end ScriptEngine
