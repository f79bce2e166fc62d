import Mathlib.Logic.Relation
import ScriptEngine.Proofs.Lookup
/-!
# How a table of symbols evolves

A compilation changes its table of symbols in five ways: it captures a variable for a function,
defines a variable, notes that a variable has a value, and opens a scope or a root. What holds of the
table at every stage is what these steps keep. Main statements: scopes and symbols stay what they are
while slots and captures are added (`Evolves.later`), and what a name stands for has a place among the
variables of its function (`Housed.evolves`).
-/

namespace ScriptEngine

variable {fromInside : Bool} {i p s : ScopeId} {name : String} {id : SymbolId} {t t' : SymbolTable}

namespace SymbolTable

/-! ### Steps -/

/-- A scope in which variables are defined: one inside a function, or one of the main program. -/
structure Hosts (t : SymbolTable) (s : ScopeId) : Prop where
  known : s < t.scopes.size
  outside : t.enclosing s = none → t.home s = root

/-- A variable that is found outside a function and has to be captured there. -/
structure Captures (t : SymbolTable) (s : ScopeId) (name : String) (id : SymbolId) : Prop where
  exists_parent : ∃ p, ∃ hlt : p < s, t.parentOf s = some ⟨p, hlt⟩ ∧ t.Finds p name true id
  passes : t.passes s id = false
  named : (t.symbol id).name = name

/-- One change of a table. -/
inductive Step (t : SymbolTable) : SymbolTable → Prop where
  | capture {s : ScopeId} {name : String} {id : SymbolId} (h : t.Captures s name id) : Step t (t.capture s id).2
  | define {s : ScopeId} (hs : t.Hosts s) (name : String) : Step t (t.define s name).2
  | markAssigned (id : SymbolId) : Step t (t.markAssigned id)
  | fork {s : ScopeId} (hs : s < t.scopes.size) (isBlock : Bool) : Step t (t.fork s isBlock).2
  | newRoot : Step t t.newRoot.2

/-- Any number of changes. -/
abbrev Evolves : SymbolTable → SymbolTable → Prop := Relation.ReflTransGen Step

/-- Looking a name up captures variables and changes nothing else. -/
theorem evolves_resolveFrom (hclosed : t.Closed) {depth : Nat}
    (h : t.resolveFrom s name fromInside = some (id, depth, t')) : Evolves t t' := by
  induction s using Nat.strongRecOn generalizing fromInside id depth t' with
  | ind s ih =>
    rcases resolveFrom_cases h with ⟨-, rfl⟩ | ⟨p, hlt, -, hparent, found, d, t1, hfound, hcases⟩
    · exact Relation.ReflTransGen.refl
    · have hlooked := resolveFrom_spec hclosed hfound
      rcases hcases with ⟨-, rfl, rfl⟩ | ⟨hpasses, rfl, rfl⟩
      · exact ih p hlt hfound
      · refine (ih p hlt hfound).tail (.capture ⟨⟨p, hlt, ?_, hlooked.again⟩, hpasses, hlooked.named⟩)
        rw [hlooked.grows.parentOf, hparent]

/-! ### What stays -/

/-- Scopes and symbols stay what they are; slots, captures, scopes and symbols are added. -/
structure Later (t t' : SymbolTable) : Prop where
  scopes : t.scopes.size ≤ t'.scopes.size
  parent : ∀ i < t.scopes.size, (t'.scope i).parent = (t.scope i).parent
  isBlock : ∀ i < t.scopes.size, (t'.scope i).isBlock = (t.scope i).isBlock
  peak : ∀ i < t.scopes.size, (t.scope i).peak ≤ (t'.scope i).peak
  captures : ∀ i < t.scopes.size, (t.scope i).captures.toList <+: (t'.scope i).captures.toList
  symbols : t.symbols.size ≤ t'.symbols.size
  symbol : ∀ id < t.symbols.size, t'.symbol id = { t.symbol id with assigned := (t'.symbol id).assigned }

namespace Later

theorem refl (t : SymbolTable) : Later t t :=
  ⟨Nat.le_refl _, fun _ _ => rfl, fun _ _ => rfl, fun _ _ => Nat.le_refl _, fun _ _ => List.prefix_refl _,
    Nat.le_refl _, fun _ _ => rfl⟩

theorem trans {t1 t2 t3 : SymbolTable} (h : Later t1 t2) (h' : Later t2 t3) : Later t1 t3 where
  scopes := Nat.le_trans h.scopes h'.scopes
  parent i hi := (h'.parent i (Nat.lt_of_lt_of_le hi h.scopes)).trans (h.parent i hi)
  isBlock i hi := (h'.isBlock i (Nat.lt_of_lt_of_le hi h.scopes)).trans (h.isBlock i hi)
  peak i hi := Nat.le_trans (h.peak i hi) (h'.peak i (Nat.lt_of_lt_of_le hi h.scopes))
  captures i hi := (h.captures i hi).trans (h'.captures i (Nat.lt_of_lt_of_le hi h.scopes))
  symbols := Nat.le_trans h.symbols h'.symbols
  symbol id hid := by
    rw [h'.symbol id (Nat.lt_of_lt_of_le hid h.symbols), h.symbol id hid]

theorem alike (h : Later t t') (hs : s < t.scopes.size) : Alike t t' s :=
  fun i hi => ⟨h.parent i (Nat.lt_of_le_of_lt hi hs), h.isBlock i (Nat.lt_of_le_of_lt hi hs)⟩

end Later

theorem Alike.enclosing (h : Alike t t' s) : t'.enclosing s = t.enclosing s := by
  fun_induction SymbolTable.enclosing t s with
  | case1 s p hlt hparent hblock ih =>
    rw [SymbolTable.enclosing, h.parentOf, hparent]
    simp only [(h s (Nat.le_refl s)).2, hblock, if_true, ih (h.lower hlt)]
  | case2 s p hlt hparent hblock =>
    rw [SymbolTable.enclosing, h.parentOf, hparent]
    simp only [(h s (Nat.le_refl s)).2, hblock]
    rfl
  | case3 s hparent => rw [SymbolTable.enclosing, h.parentOf, hparent]

theorem later_of_grows (h : Grows t t') (hpeak : ∀ i, (t.scope i).peak ≤ (t'.scope i).peak)
    (hcaptures : ∀ i, (t.scope i).captures.toList <+: (t'.scope i).captures.toList) : Later t t' where
  scopes := Nat.le_of_eq h.scopes.symm
  parent i _ := h.parent i
  isBlock i _ := h.isBlock i
  peak i _ := hpeak i
  captures i _ := hcaptures i
  symbols := h.size
  symbol id hid := by rw [h.symbol id hid]

section

variable (t : SymbolTable)

theorem later_capture (s : ScopeId) (outer : SymbolId) : Later t (t.capture s outer).2 := by
  refine later_of_grows (grows_capture t s outer) (fun i => ?_) (fun i => ?_) <;> rw [scope_capture] <;> split
  · exact Nat.le_refl _
  · exact Nat.le_refl _
  · simp
  · exact List.prefix_refl _

theorem later_define (s : ScopeId) (name : String) : Later t (t.define s name).2 where
  scopes := Nat.le_of_eq (size_scopes_define t s name).symm
  parent i _ := parent_define t s name i
  isBlock i _ := isBlock_define t s name i
  peak i _ := peak_le_define t s name i
  captures i _ := by simp [captures_define]
  symbols := by
    rw [symbols_define, Array.size_push]
    exact Nat.le_succ _
  symbol id hid := by rw [symbol_define, if_neg (Nat.ne_of_lt hid)]

theorem symbol_markAssigned (id i : SymbolId) (hi : i < t.symbols.size) :
    (t.markAssigned id).symbol i =
      { t.symbol i with assigned := if id = i then true else (t.symbol i).assigned } := by
  by_cases hid : id = i <;> simp [symbol, markAssigned, hid, hi, Array.getElem_modify]

theorem later_markAssigned (id : SymbolId) : Later t (t.markAssigned id) where
  scopes := Nat.le_refl _
  parent _ _ := rfl
  isBlock _ _ := rfl
  peak _ _ := Nat.le_refl _
  captures _ _ := List.prefix_refl _
  symbols := Nat.le_of_eq (Array.size_modify ..).symm
  symbol i hi := by rw [symbol_markAssigned t id i hi]

theorem later_addScope (c : Scope) : Later t (t.addScope c).2 := by
  have hold : ∀ i < t.scopes.size, (t.addScope c).2.scope i = t.scope i := by
    intro i hi
    rw [scope_addScope, if_neg (Nat.ne_of_lt hi)]
  refine ⟨?_, fun i hi => ?_, fun i hi => ?_, fun i hi => ?_, fun i hi => ?_, Nat.le_refl _, fun _ _ => rfl⟩
  · simp [addScope]
  · rw [hold i hi]
  · rw [hold i hi]
  · exact Nat.le_of_eq (congrArg Scope.peak (hold i hi)).symm
  · exact (hold i hi).symm ▸ List.prefix_refl _

end

theorem Step.later (h : Step t t') : Later t t' := by
  cases h with
  | capture _ => exact later_capture ..
  | define _ name => exact later_define ..
  | markAssigned id => exact later_markAssigned ..
  | fork _ isBlock | newRoot => exact later_addScope ..

/-- Scopes and symbols stay what they are. -/
theorem Evolves.later (h : Evolves t t') : Later t t' := by
  induction h with
  | refl => exact .refl t
  | tail _ hstep ih => exact ih.trans hstep.later

theorem Hosts.later (h : t.Hosts s) (hlater : Later t t') : t'.Hosts s := by
  have halike := hlater.alike h.known
  refine ⟨Nat.lt_of_lt_of_le h.known hlater.scopes, fun hout => ?_⟩
  rw [halike.enclosing] at hout
  rw [halike.home, h.outside hout]

theorem scope_fork (t : SymbolTable) (s : ScopeId) (isBlock : Bool) :
    (t.fork s isBlock).2.scope t.scopes.size = { parent := some s, isBlock } := by
  rw [fork, scope_addScope, if_pos rfl]

theorem parentOf_fork (hs : s < t.scopes.size) (isBlock : Bool) :
    (t.fork s isBlock).2.parentOf t.scopes.size = some ⟨s, hs⟩ :=
  parentOf_eq_some (by rw [scope_fork]) hs

/-- Variables can be defined in a new function. -/
theorem hosts_function (hs : s < t.scopes.size) : (t.fork s false).2.Hosts t.scopes.size := by
  refine ⟨?_, fun hout => ?_⟩
  · simp [fork, addScope]
  · rw [enclosing, parentOf_fork hs, scope_fork] at hout
    cases hout

/-- Variables can be defined in a block where they can be defined around it. -/
theorem Hosts.fork (h : t.Hosts s) (isBlock : Bool) : (t.fork s isBlock).2.Hosts t.scopes.size := by
  cases isBlock with
  | false => exact hosts_function h.known
  | true =>
    have hlater := h.later (later_addScope t { parent := some s, isBlock := true })
    refine ⟨?_, fun hout => ?_⟩
    · simp [SymbolTable.fork, addScope]
    · rw [enclosing, parentOf_fork h.known, scope_fork] at hout
      rw [home, parentOf_fork h.known, scope_fork]
      exact hlater.outside hout

end SymbolTable

/-! ### Places of variables -/

/-- How many variables of each kind code can use. -/
structure Extent where
  globals : Nat
  locals : Nat
  captures : Nat
  deriving Repr, DecidableEq, Inhabited

instance : LE Extent := ⟨fun e e' => e.globals ≤ e'.globals ∧ e.locals ≤ e'.locals ∧ e.captures ≤ e'.captures⟩

/-- A symbol stands for one of these variables, or for a builtin. -/
def Symbol.Within (sym : Symbol) (e : Extent) : Prop :=
  match sym.storage with
  | .global => sym.index < e.globals
  | .slot => sym.index < e.locals
  | .captured => sym.index < e.captures
  | .builtin => sym.index < Builtin.all.size

theorem Symbol.Within.mono {sym sym' : Symbol} {e e' : Extent} (h : sym.Within e) (hle : e ≤ e')
    (hsame : sym' = { sym with assigned := sym'.assigned }) : sym'.Within e' := by
  rw [hsame]
  obtain ⟨name, storage, index, assigned⟩ := sym
  cases storage with
  | global => exact Nat.lt_of_lt_of_le h hle.1
  | slot => exact Nat.lt_of_lt_of_le h hle.2.1
  | captured => exact Nat.lt_of_lt_of_le h hle.2.2
  | builtin => exact h

namespace SymbolTable

/-- The variables that code in a scope can use. -/
def extent (t : SymbolTable) (s : ScopeId) : Extent :=
  if (t.enclosing s).isSome then
    ⟨(t.scope root).peak, (t.scope (t.home s)).peak, (t.scope (t.home s)).captures.size⟩
  else ⟨(t.scope root).peak, 0, 0⟩

theorem Later.extent_le (h : Later t t') (hs : s < t.scopes.size) : t.extent s ≤ t'.extent s := by
  have halike := h.alike hs
  have hhome := Nat.lt_of_le_of_lt (t.home_le s) hs
  have hroot := h.peak root (Nat.lt_of_le_of_lt (Nat.zero_le s) hs)
  rw [extent, extent, halike.enclosing, halike.home]
  split
  · refine ⟨hroot, h.peak _ hhome, ?_⟩
    simpa using (h.captures _ hhome).length_le
  · exact ⟨hroot, Nat.le_refl _, Nat.le_refl _⟩

/-- A block uses the variables of what it stands in. -/
theorem extent_block {hlt : p < s} (hparent : t.parentOf s = some ⟨p, hlt⟩) (hblock : (t.scope s).isBlock = true) :
    t.extent s = t.extent p := by
  rw [extent, extent, enclosing, home, hparent]
  simp only [hblock, if_true]

/-- A function has its own variables. -/
theorem extent_function {hlt : p < s} (hparent : t.parentOf s = some ⟨p, hlt⟩)
    (hblock : (t.scope s).isBlock = false) :
    t.extent s = ⟨(t.scope root).peak, (t.scope s).peak, (t.scope s).captures.size⟩ := by
  rw [extent, enclosing, home, hparent]
  simp [hblock]

/-- A captured symbol stands for a variable of the function around. -/
structure CapturedBy (t : SymbolTable) (s : ScopeId) (id : SymbolId) : Prop where
  known : id < t.symbols.size
  storage : (t.symbol id).storage = .slot ∨ (t.symbol id).storage = .captured
  within : ∃ p, ∃ hlt : p < s, t.parentOf s = some ⟨p, hlt⟩ ∧ (t.symbol id).Within (t.extent p)

/-- A symbol stands for a builtin. -/
def IsBuiltin (t : SymbolTable) (id : SymbolId) : Prop :=
  id < t.symbols.size ∧ (t.symbol id).storage = .builtin ∧ (t.symbol id).index < Builtin.all.size

/-- What a name stands for has a place among the variables that can be used there. -/
structure Housed (t : SymbolTable) : Prop where
  closed : t.Closed
  names : ∀ s name id, (t.scope s).names.find? name = some id → (t.symbol id).Within (t.extent s)
  captures : ∀ s, ∀ id ∈ (t.scope s).captures, t.CapturedBy s id
  builtins : ∀ id ∈ t.builtins, t.IsBuiltin id

theorem Later.within (h : Later t t') (hs : s < t.scopes.size) (hid : id < t.symbols.size)
    (hwithin : (t.symbol id).Within (t.extent s)) : (t'.symbol id).Within (t'.extent s) :=
  hwithin.mono (h.extent_le hs) (h.symbol id hid)

theorem Later.parentOf (h : Later t t') (hs : s < t.scopes.size) : t'.parentOf s = t.parentOf s :=
  (h.alike hs).parentOf

theorem CapturedBy.later (h : t.CapturedBy s id) (hlater : Later t t') : t'.CapturedBy s id := by
  obtain ⟨hknown, hstorage, p, hlt, hparent, hwithin⟩ := h
  have hs := lt_size_of_parentOf hparent
  refine ⟨Nat.lt_of_lt_of_le hknown hlater.symbols, ?_, p, hlt, ?_, ?_⟩
  · rw [hlater.symbol id hknown]
    exact hstorage
  · rw [hlater.parentOf hs, hparent]
  · exact hlater.within (Nat.lt_trans hlt hs) hknown hwithin

/-- What is found from a scope can be used there. -/
theorem Housed.within (h : t.Housed) (hfinds : t.Finds s name fromInside id) : (t.symbol id).Within (t.extent s) := by
  induction s using Nat.strongRecOn generalizing fromInside with
  | ind s ih =>
    rcases hfinds.cases h.closed with hhere | ⟨p, hlt, -, hparent, hpasses, hinner⟩
    · exact h.names s name id (here_eq_some hhere)
    · have hp := ih p hlt hinner
      cases hblock : (t.scope s).isBlock with
      | true => rwa [extent_block hparent hblock]
      | false =>
        -- Globals and builtins are the same everywhere.
        rw [passes, hblock, Bool.false_or, Bool.or_eq_true, beq_iff_eq, beq_iff_eq] at hpasses
        have hglobals : ∀ i, (t.extent i).globals = (t.scope root).peak := by
          intro i
          rw [extent]
          split <;> rfl
        rcases hpasses with hstorage | hstorage <;> simp only [Symbol.Within, hstorage, hglobals] at hp ⊢ <;>
          exact hp

/-- It is enough to look at what is new. -/
theorem Housed.grow (h : t.Housed) (hlater : Later t t') (hclosed : t'.Closed)
    (hnames : ∀ s name id, (t'.scope s).names.find? name = some id →
      (t.scope s).names.find? name = some id ∨ (t'.symbol id).Within (t'.extent s))
    (hcaptures : ∀ s, ∀ id ∈ (t'.scope s).captures, id ∈ (t.scope s).captures ∨ t'.CapturedBy s id)
    (hbuiltins : ∀ id ∈ t'.builtins, id ∈ t.builtins ∨ t'.IsBuiltin id) : t'.Housed := by
  refine ⟨hclosed, fun s name id hfind => ?_, fun s id hid => ?_, fun id hid => ?_⟩
  · rcases hnames s name id hfind with hold | hnew
    · have hs : s < t.scopes.size := by
        rcases Nat.lt_or_ge s t.scopes.size with hs | hs
        · exact hs
        · rw [scope_of_size_le hs] at hold
          cases hold
      exact hlater.within hs (h.closed s name id hold).1 (h.names s name id hold)
    · exact hnew
  · exact (hcaptures s id hid).elim (fun hold => (h.captures s id hold).later hlater) fun hnew => hnew
  · rcases hbuiltins id hid with hold | hnew
    · obtain ⟨hknown, hstorage, hindex⟩ := h.builtins id hold
      rw [IsBuiltin, hlater.symbol id hknown]
      exact ⟨Nat.lt_of_lt_of_le hknown hlater.symbols, hstorage, hindex⟩
    · exact hnew

theorem Captures.capturedBy (hcaptures : t.Captures s name id) (h : t.Housed) : t.CapturedBy s id := by
  obtain ⟨p, hlt, hparent, hfinds⟩ := hcaptures.exists_parent
  have hpasses := hcaptures.passes
  refine ⟨hfinds.known h.closed, ?_, p, hlt, hparent, h.within hfinds⟩
  cases hstorage : (t.symbol id).storage <;> simp [SymbolTable.passes, hstorage] at hpasses ⊢

theorem Captures.isBlock (hcaptures : t.Captures s name id) : (t.scope s).isBlock = false := by
  have hpasses := hcaptures.passes
  simp only [SymbolTable.passes, Bool.or_eq_false_iff] at hpasses
  exact hpasses.1.1

theorem Housed.capture (h : t.Housed) (hcaptures : t.Captures s name id) : (t.capture s id).2.Housed := by
  have hlater := later_capture t s id
  obtain ⟨p, hlt, hparent, -⟩ := hcaptures.exists_parent
  have hs := lt_size_of_parentOf hparent
  refine h.grow hlater (h.closed.capture s id) (fun i n x hfind => ?_) (fun i x hx => ?_) fun _ hx => .inl hx
  · rw [scope_capture] at hfind
    split at hfind
    · next hi =>
      rw [Dict.find?_insert] at hfind
      split at hfind
      · cases hfind
        rw [← hi.1]
        refine .inr ?_
        rw [extent_function (by rw [hlater.parentOf hs, hparent]) (by rw [hlater.isBlock s hs, hcaptures.isBlock]),
          symbol_capture, if_pos rfl, scope_capture (i := s), if_pos ⟨rfl, hs⟩]
        simp [Symbol.Within]
      · exact .inl hfind
    · exact .inl hfind
  · rw [scope_capture] at hx
    split at hx
    · next hi =>
      rcases Array.mem_push.1 hx with hx | rfl
      · exact .inl hx
      · rw [← hi.1]
        exact .inr ((hcaptures.capturedBy h).later hlater)
    · exact .inl hx

theorem Housed.define (h : t.Housed) (hs : t.Hosts s) (name : String) : (t.define s name).2.Housed := by
  have hlater := later_define t s name
  have halike := hlater.alike hs.known
  refine h.grow hlater (h.closed.define s name) (fun i n x hfind => ?_) (fun i x hx => ?_) fun x hx => ?_
  · rw [names_define] at hfind
    split at hfind
    · next hi =>
      rw [Dict.find?_insert] at hfind
      split at hfind
      · cases hfind
        rw [← hi.1]
        have hindex := nextIndex_lt_peak_define t hs.known name
        refine .inr ?_
        rw [symbol_define, if_pos rfl, extent, halike.enclosing, halike.home, owner]
        cases henclosing : t.enclosing s with
        | none =>
          rw [hs.outside henclosing] at hindex
          exact hindex
        | some p => exact hindex
      · exact .inl hfind
    · exact .inl hfind
  · rw [captures_define] at hx
    exact .inl hx
  · rw [(raised_define t s name).builtins] at hx
    exact .inl hx

theorem Housed.markAssigned (h : t.Housed) (id : SymbolId) : (t.markAssigned id).Housed :=
  h.grow (later_markAssigned t id) (h.closed.markAssigned id) (fun _ _ _ hfind => .inl hfind)
    (fun _ _ hx => .inl hx) fun _ hx => .inl hx

theorem Housed.fork (h : t.Housed) (s : ScopeId) (isBlock : Bool) : (t.fork s isBlock).2.Housed := by
  refine h.grow (later_addScope t _) (h.closed.fork s isBlock) (fun i n x hfind => ?_) (fun i x hx => ?_) fun _ hx => .inl hx
  · rw [SymbolTable.fork, scope_addScope] at hfind
    split at hfind
    · cases hfind
    · exact .inl hfind
  · rw [SymbolTable.fork, scope_addScope] at hx
    split at hx
    · simp at hx
    · exact .inl hx

/-- The names of a new root are those of the builtins. -/
theorem find?_newRoot (hfind : (t.newRoot.2.scope t.scopes.size).names.find? name = some id) :
    id ∈ t.builtins ∧ (t.symbol id).name = name := by
  rw [newRoot, scope_addScope, if_pos rfl, ← Array.foldl_toList] at hfind
  have hfold : ∀ (ids : List SymbolId) (d : Dict SymbolId), (∀ x ∈ ids, x ∈ t.builtins) →
      (∀ n x, d.find? n = some x → x ∈ t.builtins ∧ (t.symbol x).name = n) → ∀ n x,
      (ids.foldl (fun d x => d.insert (t.symbol x).name x) d).find? n = some x →
      x ∈ t.builtins ∧ (t.symbol x).name = n := by
    intro ids
    induction ids with
    | nil => exact fun d _ hd => hd
    | cons y rest ih =>
      intro d hids hd
      refine ih _ (fun x hx => hids x (List.mem_cons_of_mem _ hx)) fun n x hfind => ?_
      rw [Dict.find?_insert] at hfind
      split at hfind
      · next heq =>
        cases hfind
        exact ⟨hids y (List.mem_cons_self ..), heq⟩
      · exact hd n x hfind
  exact hfold _ {} (fun x hx => Array.mem_toList_iff.1 hx) (fun _ _ hfind => by cases hfind) name id hfind

theorem Housed.newRoot (h : t.Housed) : t.newRoot.2.Housed := by
  have hlater : Later t t.newRoot.2 := later_addScope t _
  have hold : ∀ {i}, i ≠ t.scopes.size → t.newRoot.2.scope i = t.scope i := by
    intro i hi
    rw [SymbolTable.newRoot, scope_addScope, if_neg hi]
  refine h.grow hlater (fun i n x hfind => ?_) (fun i n x hfind => ?_) (fun i x hx => ?_) fun _ hx => .inl hx
  · by_cases hi : i = t.scopes.size
    · subst hi
      obtain ⟨hmem, hname⟩ := find?_newRoot hfind
      exact ⟨(h.builtins x hmem).1, hname⟩
    · rw [hold hi] at hfind
      exact h.closed i n x hfind
  · by_cases hi : i = t.scopes.size
    · subst hi
      obtain ⟨-, hstorage, hindex⟩ := h.builtins x (find?_newRoot hfind).1
      refine .inr ?_
      show (t.symbol x).Within _
      simp only [Symbol.Within, hstorage]
      exact hindex
    · rw [hold hi] at hfind
      exact .inl hfind
  · by_cases hi : i = t.scopes.size
    · rw [hi, SymbolTable.newRoot, scope_addScope] at hx
      simp at hx
    · rw [hold hi] at hx
      exact .inl hx

/-- Names keep their places. -/
theorem Housed.evolves (h : t.Housed) (hevolves : Evolves t t') : t'.Housed := by
  induction hevolves with
  | refl => exact h
  | tail _ hstep ih =>
    cases hstep with
    | capture hcaptures => exact ih.capture hcaptures
    | define hs name => exact ih.define hs name
    | markAssigned id => exact ih.markAssigned id
    | fork _ isBlock => exact ih.fork _ isBlock
    | newRoot => exact ih.newRoot

/-! ### Where a compilation starts -/

/-- A table with which a compilation may start: one that is empty or knows the builtins, with globals of
the host. -/
inductive Initial : SymbolTable → Prop where
  | empty : Initial {}
  | withBuiltins : Initial withBuiltins
  | defineGlobal {t : SymbolTable} (h : Initial t) (name : String) : Initial (t.defineGlobal name).2

theorem housed_empty : Housed {} := by
  have hscope : ∀ i, (({} : SymbolTable).scope i).names.find? = fun _ => none := by
    intro i
    cases i <;> rfl
  refine ⟨fun i name id hfind => ?_, fun i name id hfind => ?_, fun i id hid => ?_, fun id hid => ?_⟩
  · rw [hscope] at hfind
    cases hfind
  · rw [hscope] at hfind
    cases hfind
  · cases i <;> simp [scope] at hid
  · simp at hid

theorem later_addSymbol (t : SymbolTable) (s : ScopeId) (sym : Symbol) : Later t (t.addSymbol s sym).2 := by
  have hscope : ∀ i, ∃ names, (t.addSymbol s sym).2.scope i = { t.scope i with names } := by
    intro i
    rw [scope_addSymbol]
    split
    · exact ⟨_, rfl⟩
    · exact ⟨_, rfl⟩
  have hsymbol : ∀ id < t.symbols.size, (t.addSymbol s sym).2.symbol id = t.symbol id := fun id hid => by
    rw [symbol_addSymbol, if_neg (Nat.ne_of_lt hid)]
  refine ⟨by simp [addSymbol], ?_, ?_, ?_, ?_, by simp [addSymbol], fun id hid => by rw [hsymbol id hid]⟩
  all_goals
    intro i _
    obtain ⟨names, h⟩ := hscope i
    simp [h]

theorem later_defineBuiltin (t : SymbolTable) (s : ScopeId) (index : Nat) (name : String) :
    Later t (t.defineBuiltin s index name).2 :=
  { later_addSymbol t s { name, storage := .builtin, index } with }

theorem Housed.defineBuiltin (h : t.Housed) (b : Builtin) : (t.defineBuiltin root b.index b.name).2.Housed := by
  let sym : Symbol := ⟨b.name, .builtin, b.index, false⟩
  have hindex : b.index < Builtin.all.size := (Array.getElem?_eq_some_iff.1 (Builtin.all_index b)).1
  have hscope : ∀ i, (t.defineBuiltin root b.index b.name).2.scope i = (t.addSymbol root sym).2.scope i := fun _ => rfl
  have hnew : (t.defineBuiltin root b.index b.name).2.symbol t.symbols.size = sym :=
    (symbol_addSymbol (s := root) sym t.symbols.size).trans (if_pos rfl)
  refine h.grow (later_defineBuiltin ..) (h.closed.addSymbol root sym) (fun i n x hfind => ?_) (fun i x hx => ?_)
    fun x hx => ?_
  · rw [hscope, scope_addSymbol] at hfind
    split at hfind
    · rw [Dict.find?_insert] at hfind
      split at hfind
      · cases hfind
        rw [hnew]
        exact .inr hindex
      · exact .inl hfind
    · exact .inl hfind
  · rw [hscope, scope_addSymbol] at hx
    split at hx <;> exact .inl hx
  · rcases Array.mem_push.1 hx with hx | rfl
    · exact .inl hx
    · refine .inr ⟨?_, ?_⟩
      · show _ < (t.symbols.push sym).size
        simp
      · rw [hnew]
        exact ⟨rfl, hindex⟩

theorem housed_withBuiltins : SymbolTable.withBuiltins.Housed := by
  rw [SymbolTable.withBuiltins, ← Array.foldl_toList]
  generalize Builtin.all.toList = bs
  suffices ∀ t : SymbolTable, t.Housed →
      (bs.foldl (fun t b => (t.defineBuiltin root b.index b.name).2) t).Housed from this {} housed_empty
  intro t ht
  induction bs generalizing t with
  | nil => exact ht
  | cons b bs ih => exact ih _ (ht.defineBuiltin b)

theorem hosts_root (h : 0 < t.scopes.size) : t.Hosts root := by
  refine ⟨h, fun _ => ?_⟩
  have hle := t.home_le root
  exact Nat.le_zero.1 hle

theorem Initial.hosts (h : t.Initial) : t.Hosts root := by
  induction h with
  | empty => exact hosts_root Nat.one_pos
  | withBuiltins =>
    have hsize : 0 < SymbolTable.withBuiltins.scopes.size := by decide +kernel
    exact hosts_root hsize
  | defineGlobal _ name ih => exact ih.later (later_define _ _ _)

theorem Initial.housed (h : t.Initial) : t.Housed := by
  induction h with
  | empty => exact housed_empty
  | withBuiltins => exact housed_withBuiltins
  | defineGlobal h name ih => exact ih.define h.hosts name

end SymbolTable

end ScriptEngine
