import Mathlib.Data.List.Chain
import Mathlib.Data.List.Permutation
import ScriptEngine.Proofs.Tables
/-!
# How slots are handed out

A compilation opens scopes inside each other, defines variables in the innermost one and closes scopes
in the opposite order; names are looked up from anywhere. A `Session` is a table in such use, together
with the scopes that are open and the definitions made so far. Main statement: the slots are handed out
soundly (`Session.slots_sound`). Variables of a function whose scopes are open never share a slot, a
function has room for every slot that was ever used in it, and globals are counted through.

What carries the proof is that the definitions of an open scope take the slots from `firstSlot` on, one
after the other: nothing is defined further out while the scope is open.
-/

namespace ScriptEngine

open SymbolTable

variable {l : List ScopeId} {i r s : ScopeId} {t : SymbolTable} {d : Definition} {id : SymbolId}

namespace SymbolTable

variable {t' : SymbolTable} {p : ScopeId} {name : String}

/-! ### Slots of a scope -/

/-- The slot of the first variable of a scope: a block counts on after its parent. -/
def firstSlot (t : SymbolTable) (s : ScopeId) : Nat :=
  match t.parentOf s with
  | some ⟨p, _⟩ => if (t.scope s).isBlock then t.nextIndex p else 0
  | none => 0

theorem nextIndex_eq (t : SymbolTable) (s : ScopeId) : t.nextIndex s = t.firstSlot s + (t.scope s).defined := by
  rw [nextIndex, firstSlot]
  cases t.parentOf s with
  | none => simp
  | some p =>
    simp only
    split <;> simp

theorem enclosing_of_parentOf_none (h : t.parentOf s = none) : t.enclosing s = none := by
  rw [enclosing, h]

theorem enclosing_block {hlt : p < s} (h : t.parentOf s = some ⟨p, hlt⟩) (hblock : (t.scope s).isBlock = true) :
    t.enclosing s = t.enclosing p := by
  rw [enclosing, h]
  simp [hblock]

theorem home_home (t : SymbolTable) (s : ScopeId) : t.home (t.home s) = t.home s := by
  fun_induction home t s with
  | case1 s p hlt hparent hblock ih => exact ih
  | case2 s p hlt hparent hblock => exact home_of_not_block (by simpa using hblock)
  | case3 s hparent => exact home_of_parentOf_none hparent

/-- Outside all functions, slots are counted at the root. -/
theorem rootOf_eq_home (h : t.enclosing s = none) : t.rootOf s = t.home s := by
  fun_induction home t s with
  | case1 s p hlt hparent hblock ih =>
    rw [rootOf, hparent]
    exact ih (enclosing_block hparent hblock ▸ h)
  | case2 s p hlt hparent hblock =>
    rw [enclosing, hparent] at h
    simp [hblock] at h
  | case3 s hparent => rw [rootOf, hparent]

theorem enclosing_home (t : SymbolTable) (s : ScopeId) : t.enclosing (t.home s) = t.enclosing s := by
  fun_induction home t s with
  | case1 s p hlt hparent hblock ih => rw [ih, enclosing_block hparent hblock]
  | case2 s p hlt hparent hblock | case3 s hparent => rfl

/-- The next slot inside a function depends on the scopes of that function only. -/
theorem Alike.nextIndex (h : Alike t t' s) (hinside : t.enclosing s ≠ none)
    (hdefined : ∀ i ≤ s, t.enclosing i ≠ none → (t'.scope i).defined = (t.scope i).defined) :
    t'.nextIndex s = t.nextIndex s := by
  fun_induction SymbolTable.nextIndex t s with
  | case1 s p hlt hparent hblock ih =>
    have hp := enclosing_block hparent hblock
    rw [SymbolTable.nextIndex, h.parentOf, hparent]
    simp only [(h s (Nat.le_refl s)).2, hblock, if_true, hdefined s (Nat.le_refl s) hinside]
    rw [ih (h.lower hlt) (hp ▸ hinside) fun i hi => hdefined i (Nat.le_trans hi (Nat.le_of_lt hlt))]
  | case2 s p hlt hparent hblock =>
    rw [SymbolTable.nextIndex, h.parentOf, hparent]
    simp [(h s (Nat.le_refl s)).2, hblock, hdefined s (Nat.le_refl s) hinside]
  | case3 s hparent => exact absurd (enclosing_of_parentOf_none hparent) hinside

theorem firstSlot_of_not_block (hblock : (t.scope s).isBlock = false) : t.firstSlot s = 0 := by
  rw [firstSlot]
  cases t.parentOf s with
  | none => rfl
  | some p => simp [hblock]

theorem Alike.firstSlot (h : Alike t t' s) (hinside : t.enclosing s ≠ none)
    (hdefined : ∀ i < s, t.enclosing i ≠ none → (t'.scope i).defined = (t.scope i).defined) :
    t'.firstSlot s = t.firstSlot s := by
  rw [SymbolTable.firstSlot, SymbolTable.firstSlot, h.parentOf]
  cases hparent : t.parentOf s with
  | none => rfl
  | some p =>
    obtain ⟨p, hlt⟩ := p
    simp only [(h s (Nat.le_refl s)).2]
    split
    · next hblock =>
      exact (h.lower hlt).nextIndex (enclosing_block hparent hblock ▸ hinside) fun i hi =>
        hdefined i (Nat.lt_of_le_of_lt hi hlt)
    · rfl

/-- Outside all functions the blocks count nothing themselves. -/
theorem nextIndex_outside (h : t.enclosing s = none)
    (hblocks : ∀ i, t.enclosing i = none → i ≠ t.home i → (t.scope i).defined = 0) :
    t.nextIndex s = (t.scope (t.home s)).defined := by
  fun_induction nextIndex t s with
  | case1 s p hlt hparent hblock ih =>
    have hhome := home_block hparent hblock
    have hne : s ≠ t.home s := by
      rw [hhome]
      exact Nat.ne_of_gt (Nat.lt_of_le_of_lt (home_le t p) hlt)
    rw [hblocks s h hne, ih (enclosing_block hparent hblock ▸ h), hhome, Nat.add_zero]
  | case2 s p hlt hparent hblock =>
    rw [enclosing, hparent] at h
    simp [hblock] at h
  | case3 s hparent => rw [home_of_parentOf_none hparent]

/-! ### Peaks -/

theorem peak_raisePeak_of_home_ne (hs : s < t.scopes.size) (n : Nat) (hne : t.home i ≠ t.home s) :
    ((t.raisePeak s n).scope i).peak = (t.scope i).peak := by
  have hsi : s ≠ i := fun h => hne (by rw [h])
  fun_induction raisePeak t s n with
  | case1 t s p hlt hparent hblock ih =>
    have hraised := raised_raiseOwnPeak t s n
    have hp : t.home i ≠ t.home p := by rwa [home_block hparent hblock] at hne
    have hpeak := ih (by rw [hraised.size]; exact Nat.lt_trans hlt hs)
      (by rwa [(hraised.alike i).home, (hraised.alike p).home]) fun h => hp (by rw [h])
    rw [hpeak, peak_raiseOwnPeak hs, if_neg hsi]
  | case2 t s p hlt hparent hblock | case3 t s hparent => rw [peak_raiseOwnPeak hs, if_neg hsi]

theorem peak_define_of_home_ne (hs : s < t.scopes.size) (name : String) (hne : t.home i ≠ t.home s) :
    ((t.define s name).2.scope i).peak = (t.scope i).peak := by
  rw [define_eq, peak_raisePeak_of_home_ne (by rwa [size_scopes_enterName]), scope_enterName]
  rwa [(alike_enterName t s name i).home, (alike_enterName t s name s).home]

theorem owner_outside (h : t.enclosing s = none) : t.owner s = (.global, t.home s) := by
  rw [owner, h, rootOf_eq_home h]

theorem Alike.storage (h : Alike t t' s) : (t'.owner s).1 = (t.owner s).1 := by
  rw [owner, owner, h.enclosing]
  cases t.enclosing s <;> rfl

theorem owner_inside (h : t.enclosing s ≠ none) : t.owner s = (.slot, s) := by
  rw [owner]
  cases hs : t.enclosing s with
  | none => exact absurd hs h
  | some p => rfl

/-! ### Uses that hand out no slot -/

/-- Scopes keep their slots; new scopes have no slots yet, and new symbols are no variables of a scope. -/
structure Settled (t t' : SymbolTable) : Prop extends Later t t' where
  defined : ∀ i, (t'.scope i).defined = (t.scope i).defined
  peaks : ∀ i, (t'.scope i).peak = (t.scope i).peak
  new : ∀ id < t'.symbols.size, t.symbols.size ≤ id →
    (t'.symbol id).storage = .builtin ∨ (t'.symbol id).storage = .captured

theorem Later.storage (h : Later t t') (hid : id < t.symbols.size) :
    (t'.symbol id).storage = (t.symbol id).storage := by rw [h.symbol id hid]

theorem Later.index (h : Later t t') (hid : id < t.symbols.size) :
    (t'.symbol id).index = (t.symbol id).index := by rw [h.symbol id hid]

theorem Settled.refl (t : SymbolTable) : Settled t t where
  toLater := .refl t
  defined _ := rfl
  peaks _ := rfl
  new _ hid hle := absurd hid (Nat.not_lt.2 hle)

theorem Settled.trans {t1 t2 t3 : SymbolTable} (h : Settled t1 t2) (h' : Settled t2 t3) : Settled t1 t3 where
  toLater := h.toLater.trans h'.toLater
  defined i := (h'.defined i).trans (h.defined i)
  peaks i := (h'.peaks i).trans (h.peaks i)
  new id hid hle := by
    by_cases hlt : id < t2.symbols.size
    · rw [h'.storage hlt]
      exact h.new id hlt hle
    · exact h'.new id hid (Nat.not_lt.1 hlt)

/-- A symbol that is no variable of a scope is added, and counts stay as they are. -/
theorem Later.settled (h : Later t t') {sym : Symbol} (hsymbols : t'.symbols = t.symbols.push sym)
    (hsym : sym.storage = .builtin ∨ sym.storage = .captured)
    (hscope : ∀ i, (t'.scope i).defined = (t.scope i).defined ∧ (t'.scope i).peak = (t.scope i).peak) :
    Settled t t' where
  toLater := h
  defined i := (hscope i).1
  peaks i := (hscope i).2
  new id hid hle := by
    rw [hsymbols, Array.size_push] at hid
    rw [SymbolTable.symbol, hsymbols, Nat.le_antisymm (Nat.lt_succ_iff.1 hid) hle]
    simpa using hsym

section

variable (t : SymbolTable)

theorem settled_markAssigned (id : SymbolId) : Settled t (t.markAssigned id) where
  toLater := later_markAssigned t id
  defined _ := rfl
  peaks _ := rfl
  new i hi hle := absurd hi (by simpa [markAssigned] using hle)

theorem settled_defineBuiltin (s : ScopeId) (index : Nat) (name : String) :
    Settled t (t.defineBuiltin s index name).2 := by
  refine (later_defineBuiltin t s index name).settled rfl (.inl rfl) fun i => ?_
  show ((t.addSymbol s _).2.scope i).defined = _ ∧ ((t.addSymbol s _).2.scope i).peak = _
  rw [scope_addSymbol]
  split <;> exact ⟨rfl, rfl⟩

/-- A new scope has no slots yet. -/
theorem settled_addScope {c : Scope} (hdefined : c.defined = 0) (hpeak : c.peak = 0) :
    Settled t (t.addScope c).2 := by
  have hnew : t.scope t.scopes.size = {} := scope_of_size_le (Nat.le_refl _)
  refine ⟨later_addScope t c, fun i => ?_, fun i => ?_, fun id hid hle => absurd hid (Nat.not_lt.2 hle)⟩
  · rw [scope_addScope]
    split
    · next hi => rw [hi, hnew, hdefined]
    · rfl
  · rw [scope_addScope]
    split
    · next hi => rw [hi, hnew, hpeak]
    · rfl

theorem parentOf_newRoot : t.newRoot.2.parentOf t.scopes.size = none :=
  parentOf_eq_none (by rw [newRoot, scope_addScope, if_pos rfl])

theorem settled_capture (s : ScopeId) (id : SymbolId) : Settled t (t.capture s id).2 := by
  refine (later_capture t s id).settled rfl (.inr rfl) fun i => ?_
  rw [scope_capture]
  split <;> exact ⟨rfl, rfl⟩

end

theorem settled_resolveFrom {fromInside : Bool} {depth : Nat}
    (h : t.resolveFrom s name fromInside = some (id, depth, t')) : Settled t t' := by
  induction s using Nat.strongRecOn generalizing fromInside id depth t' with
  | _ s ih =>
    rcases resolveFrom_cases h with ⟨-, rfl⟩ | ⟨p, hlt, -, -, found, d, t1, hfound, hcases⟩
    · exact .refl _
    · rcases hcases with ⟨-, -, rfl⟩ | ⟨-, -, rfl⟩
      · exact ih p hlt hfound
      · exact (ih p hlt hfound).trans (settled_capture t1 s found)

end SymbolTable

/-! ### Sessions -/

/-- One use of a table. -/
inductive TableUse where
  /-- Opens a function or a block in the innermost scope. -/
  | fork (isBlock : Bool)
  /-- Opens a root of its own. -/
  | openRoot
  | close
  /-- Defines a variable in the innermost scope. -/
  | define (name : String)
  | defineBuiltin (s : ScopeId) (index : Nat) (name : String)
  | resolve (s : ScopeId) (name : String)
  | markAssigned (id : SymbolId)
  deriving Repr, DecidableEq, Inhabited

/-- A variable and the scope in which it was defined. -/
structure Definition where
  id : SymbolId
  scope : ScopeId
  deriving Repr, DecidableEq, Inhabited

/-- A table in use: the innermost open scope, the open scopes around it from the inside out, and the
definitions made so far, in order. -/
structure Session where
  table : SymbolTable := {}
  innermost : ScopeId := root
  around : List ScopeId := []
  made : List Definition := []
  deriving Inhabited

namespace Session

/-- The open scopes, the innermost one first. -/
def opened (u : Session) : List ScopeId := u.innermost :: u.around

/-- Goes on in a scope that was opened. -/
def goInto (u : Session) (opened : ScopeId × SymbolTable) : Session :=
  { u with table := opened.2, innermost := opened.1, around := u.opened }

/-- Defines a variable in the innermost scope. -/
def define (u : Session) (name : String) : Session :=
  let (id, t) := u.table.define u.innermost name
  { u with table := t, made := u.made ++ [⟨id, u.innermost⟩] }

/-- A use of the table; the outermost scope cannot be closed. -/
def apply (u : Session) : TableUse → Option Session
  | .fork isBlock => some (u.goInto (u.table.fork u.innermost isBlock))
  | .openRoot => some (u.goInto u.table.newRoot)
  | .close =>
    match u.around with
    | [] => none
    | s :: rest => some { u with innermost := s, around := rest }
  | .define name => some (u.define name)
  | .defineBuiltin s index name => some { u with table := (u.table.defineBuiltin s index name).2 }
  | .resolve s name =>
    match u.table.resolve s name with
    | none => some u
    | some (_, _, t) => some { u with table := t }
  | .markAssigned id => some { u with table := u.table.markAssigned id }

/-- Uses in turn. -/
def applyAll (u : Session) : List TableUse → Option Session
  | [] => some u
  | use :: rest => do
    let u ← u.apply use
    u.applyAll rest

/-- The function or root whose slots a definition takes. -/
def homeOf (u : Session) (d : Definition) : ScopeId := u.table.home d.scope

/-- The slot that a definition got. -/
def slotOf (u : Session) (d : Definition) : Nat := (u.table.symbol d.id).index

/-- The definitions made in a scope itself. -/
def madeIn (u : Session) (s : ScopeId) : List Definition := u.made.filter (·.scope = s)

/-- The definitions that take slots of a function or root, those in its blocks included. -/
def madeBelow (u : Session) (s : ScopeId) : List Definition := u.made.filter (u.homeOf · = s)

/-! ### What holds in every session -/

/-- The scopes that are open stand inside each other. -/
def Nested (t : SymbolTable) (inner outer : ScopeId) : Prop :=
  outer < inner ∧ ∀ p ∈ t.parentOf inner, p.1 = outer

/-- What every use keeps. -/
structure Kept (u : Session) : Prop where
  known : ∀ s ∈ u.opened, s < u.table.scopes.size
  nested : u.opened.IsChain (Nested u.table)
  scopes : ∀ d ∈ u.made, d.scope < u.table.scopes.size
  ids : ∀ d ∈ u.made, d.id < u.table.symbols.size
  storage : ∀ d ∈ u.made, (u.table.symbol d.id).storage = (u.table.owner d.scope).1
  complete : ∀ id < u.table.symbols.size,
    (u.table.symbol id).storage = .slot ∨ (u.table.symbol id).storage = .global → ∃ d ∈ u.made, d.id = id
  /-- The definitions of an open scope, or of a function itself, take one slot after the other. -/
  consecutive : ∀ s, u.table.enclosing s ≠ none → s ∈ u.opened ∨ (u.table.scope s).isBlock = false →
    (u.madeIn s).map u.slotOf = List.range' (u.table.firstSlot s) (u.table.scope s).defined
  below : ∀ d ∈ u.made, u.slotOf d < (u.table.scope (u.homeOf d)).peak
  /-- Blocks outside all functions count nothing themselves. -/
  blocks : ∀ s, u.table.enclosing s = none → s ≠ u.table.home s → (u.table.scope s).defined = 0
  peak : ∀ s, u.table.parentOf s = none → (u.table.scope s).peak = (u.table.scope s).defined
  globals : ∀ s, u.table.parentOf s = none →
    (u.madeBelow s).map u.slotOf = List.range (u.table.scope s).defined

theorem scope_start (s : ScopeId) : ({} : SymbolTable).scope s = {} := by
  cases s <;> rfl

theorem kept_start : Kept {} := by
  have hscope := scope_start
  have hparent : ∀ s, ({} : SymbolTable).parentOf s = none := fun s =>
    parentOf_eq_none (by rw [hscope])
  refine ⟨fun s hs => ?_, .singleton _, fun d hd => ?_, fun d hd => ?_, fun d hd => ?_,
    fun id hid => absurd hid (Nat.not_lt_zero _), fun s hs => ?_, fun d hd => ?_, fun s _ _ => ?_,
    fun s _ => ?_, fun s _ => ?_⟩
  any_goals cases hd
  · rw [List.mem_singleton.1 hs]
    exact Nat.zero_lt_one
  · exact absurd (enclosing_of_parentOf_none (hparent s)) hs
  · rw [hscope]
  · rw [hscope]
  · rw [hscope]
    rfl

section

variable {u u' : Session}

theorem Kept.madeIn_eq_nil (h : u.Kept) (hs : u.table.scopes.size ≤ s) : u.madeIn s = [] := by
  refine List.filter_eq_nil_iff.2 fun d hd heq => ?_
  exact Nat.not_lt.2 hs (of_decide_eq_true heq ▸ h.scopes d hd)

theorem Kept.madeBelow_eq_nil (h : u.Kept) (hs : u.table.scopes.size ≤ s) : u.madeBelow s = [] := by
  refine List.filter_eq_nil_iff.2 fun d hd heq => ?_
  exact Nat.not_lt.2 hs (of_decide_eq_true heq ▸ Nat.lt_of_le_of_lt (home_le _ _) (h.scopes d hd))

/-- Uses that hand out no slot. -/
theorem Kept.settle (h : u.Kept) (hs : u.table.Settled u'.table) (hmade : u'.made = u.made)
    (hopened : ∀ s ∈ u'.opened, s ∈ u.opened ∨ u.table.scopes.size ≤ s)
    (hknown : ∀ s ∈ u'.opened, s < u'.table.scopes.size) (hnested : u'.opened.IsChain (Nested u'.table)) :
    u'.Kept := by
  have hhome : ∀ d ∈ u.made, u'.homeOf d = u.homeOf d := fun d hd => (hs.alike (h.scopes d hd)).home
  have hslot : ∀ d ∈ u.made, u'.slotOf d = u.slotOf d := fun d hd => hs.index (h.ids d hd)
  have hnone : ∀ s, u.table.scopes.size ≤ s → u.table.scope s = {} := fun s => scope_of_size_le
  constructor
  case known => exact hknown
  case nested => exact hnested
  case scopes => exact fun d hd => Nat.lt_of_lt_of_le (h.scopes d (hmade ▸ hd)) hs.scopes
  case ids => exact fun d hd => Nat.lt_of_lt_of_le (h.ids d (hmade ▸ hd)) hs.symbols
  case storage =>
    intro d hd
    rw [hmade] at hd
    rw [hs.storage (h.ids d hd), (hs.alike (h.scopes d hd)).storage]
    exact h.storage d hd
  case complete =>
    intro id hid hstorage
    by_cases hold : id < u.table.symbols.size
    · rw [hs.storage hold] at hstorage
      exact hmade ▸ h.complete id hold hstorage
    · rcases hs.new id hid (Nat.not_lt.1 hold) with hnew | hnew
      all_goals simp [hnew] at hstorage
  case consecutive =>
    intro s hinside hopen
    have hmap : (u.madeIn s).map u'.slotOf = (u.madeIn s).map u.slotOf :=
      List.map_congr_left fun d hd => hslot d (List.mem_filter.1 hd).1
    rw [madeIn, hmade, ← madeIn, hmap, hs.defined]
    by_cases hlt : s < u.table.scopes.size
    · have halike := hs.alike hlt
      rw [halike.enclosing] at hinside
      rw [halike.firstSlot hinside fun i _ _ => hs.defined i]
      refine h.consecutive s hinside (hopen.imp (fun hmem => ?_) fun hb => (halike s (Nat.le_refl s)).2 ▸ hb)
      exact (hopened s hmem).resolve_right (Nat.not_le.2 hlt)
    · rw [h.madeIn_eq_nil (Nat.not_lt.1 hlt), hnone s (Nat.not_lt.1 hlt)]
      rfl
  case below =>
    intro d hd
    rw [hmade] at hd
    rw [hslot d hd, hhome d hd, hs.peaks]
    exact h.below d hd
  case blocks =>
    intro s hout hne
    rw [hs.defined]
    by_cases hlt : s < u.table.scopes.size
    · exact h.blocks s ((hs.alike hlt).enclosing ▸ hout) ((hs.alike hlt).home ▸ hne)
    · rw [hnone s (Nat.not_lt.1 hlt)]
  case peak =>
    intro s hroot
    rw [hs.peaks, hs.defined]
    by_cases hlt : s < u.table.scopes.size
    · exact h.peak s ((hs.alike hlt).parentOf ▸ hroot)
    · rw [hnone s (Nat.not_lt.1 hlt)]
  case globals =>
    intro s hroot
    have hbelow : u'.madeBelow s = u.madeBelow s := by
      rw [madeBelow, hmade]
      exact List.filter_congr fun d hd => by rw [hhome d hd]
    have hmap : (u.madeBelow s).map u'.slotOf = (u.madeBelow s).map u.slotOf :=
      List.map_congr_left fun d hd => hslot d (List.mem_filter.1 hd).1
    rw [hbelow, hmap, hs.defined]
    by_cases hlt : s < u.table.scopes.size
    · exact h.globals s ((hs.alike hlt).parentOf ▸ hroot)
    · rw [h.madeBelow_eq_nil (Nat.not_lt.1 hlt), hnone s (Nat.not_lt.1 hlt)]
      rfl

theorem Kept.goInto (h : u.Kept) {opened : ScopeId × SymbolTable} (hs : u.table.Settled opened.2)
    (hnew : opened.1 = u.table.scopes.size) (hlt : opened.1 < opened.2.scopes.size)
    (hparent : ∀ p ∈ opened.2.parentOf opened.1, p.1 = u.innermost) : (u.goInto opened).Kept := by
  refine h.settle hs rfl (fun s hmem => ?_) (fun s hmem => ?_) ?_
  · exact (List.mem_cons.1 hmem).symm.imp_right fun heq => Nat.le_of_eq (heq.trans hnew).symm
  · rcases List.mem_cons.1 hmem with rfl | hmem
    · exact hlt
    · exact Nat.lt_of_lt_of_le (h.known s hmem) hs.scopes
  · refine .cons_cons ⟨?_, hparent⟩ ?_
    · show u.innermost < opened.1
      rw [hnew]
      exact h.known u.innermost (List.mem_cons_self ..)
    · refine h.nested.imp_of_mem_imp fun s s' hmem _ hn => ⟨hn.1, fun p hp => hn.2 p ?_⟩
      rwa [← (hs.alike (h.known s hmem)).parentOf]

theorem Kept.close (h : u.Kept) {rest : List ScopeId} (hrest : u.around = s :: rest) :
    Kept { u with innermost := s, around := rest } := by
  have hopened : u.opened = u.innermost :: s :: rest := by rw [opened, hrest]
  refine h.settle (.refl _) rfl (fun i hi => .inl ?_) (fun i hi => h.known i ?_) ?_
  · rw [hopened]
    exact List.mem_cons_of_mem _ hi
  · rw [hopened]
    exact List.mem_cons_of_mem _ hi
  · have hchain := h.nested
    rw [hopened] at hchain
    exact hchain.tail

/-- Scopes further in have larger numbers. -/
theorem lt_of_nested (hl : (r :: l).IsChain (Nested t)) (hs : s ∈ l) : s < r := by
  have hchain : (r :: l).IsChain (· > ·) := hl.imp fun _ _ hn => hn.1
  exact (List.pairwise_cons.1 (List.isChain_iff_pairwise.1 hchain)).1 s hs

theorem Kept.le_innermost (h : u.Kept) (hs : s ∈ u.opened) : s ≤ u.innermost := by
  rcases List.mem_cons.1 hs with rfl | hs
  · exact Nat.le_refl _
  · exact Nat.le_of_lt (lt_of_nested h.nested hs)

/-- A definition changes the count of no other scope inside a function. -/
theorem defined_define_inside (hs : t.enclosing s ≠ none) (hne : i ≠ s) (name : String) :
    ((t.define i name).2.scope s).defined = (t.scope s).defined := by
  rw [defined_define, if_neg]
  rintro ⟨rfl, -⟩
  by_cases hi : t.enclosing i = none
  · rw [owner_outside hi] at hs
    exact hs (t.enclosing_home i ▸ hi)
  · rw [owner_inside hi] at hne
    exact hne rfl

/-- A definition changes the count of no root but its own. -/
theorem defined_define_of_home_ne (hne : t.home s ≠ t.home i) (name : String) :
    ((t.define i name).2.scope s).defined = (t.scope s).defined := by
  rw [defined_define, if_neg]
  rintro ⟨rfl, -⟩
  by_cases h : t.enclosing i = none
  · exact hne (by rw [owner_outside h, home_home])
  · exact hne (by rw [owner_inside h])

/-- The definition that comes next. -/
def next (u : Session) : Definition := ⟨u.table.symbols.size, u.innermost⟩

theorem made_define (u : Session) (name : String) : (u.define name).made = u.made ++ [u.next] := by
  simp [define, next]

theorem mem_made_define {name : String} : d ∈ (u.define name).made ↔ d ∈ u.made ∨ d = u.next := by
  rw [made_define, List.mem_append, List.mem_singleton]

theorem alike_define (u : Session) (name : String) (s : ScopeId) :
    Alike u.table (u.define name).table s := SymbolTable.alike_define u.table u.innermost name s

theorem symbol_next (u : Session) (name : String) : (u.define name).table.symbol u.next.id =
    ⟨name, (u.table.owner u.innermost).1, u.table.nextIndex u.innermost, false⟩ := by
  show (u.table.define u.innermost name).2.symbol u.table.symbols.size = _
  rw [symbol_define, if_pos rfl]

theorem slotOf_next (u : Session) (name : String) :
    (u.define name).slotOf u.next = u.table.nextIndex u.innermost := by
  rw [slotOf, symbol_next]

section

variable (h : u.Kept)
include h

section

variable (name : String)

theorem Kept.slotOf_define (hd : d ∈ u.made) : (u.define name).slotOf d = u.slotOf d := by
  rw [slotOf, slotOf, define, symbol_define, if_neg (Nat.ne_of_lt (h.ids d hd))]

theorem Kept.map_slotOf_define {l : List Definition} (hl : l ⊆ u.made) :
    l.map (u.define name).slotOf = l.map u.slotOf :=
  List.map_congr_left fun _ hd => h.slotOf_define name (hl hd)

/-- The slots of an open scope, or of a function itself, after a definition. -/
theorem Kept.consecutive_define (hinside : u.table.enclosing s ≠ none)
    (hopen : s ∈ u.opened ∨ (u.table.scope s).isBlock = false) :
    ((u.define name).madeIn s).map (u.define name).slotOf =
      List.range' ((u.define name).table.firstSlot s) ((u.define name).table.scope s).defined := by
  have hslots := h.consecutive s hinside hopen
  have hmap := h.map_slotOf_define name (l := u.madeIn s) fun d hd => (List.mem_filter.1 hd).1
  have hfirst : (u.define name).table.firstSlot s = u.table.firstSlot s := by
    rcases hopen with hmem | hblock
    · -- Nothing further out is counted while the scope is open.
      refine (u.alike_define name s).firstSlot hinside fun j hj hin => defined_define_inside hin ?_ name
      exact Nat.ne_of_gt (Nat.lt_of_lt_of_le hj (h.le_innermost hmem))
    · rw [firstSlot_of_not_block hblock, firstSlot_of_not_block]
      rw [(u.alike_define name s s (Nat.le_refl s)).2, hblock]
  rw [hfirst, madeIn, made_define, List.filter_append, ← madeIn, List.map_append, hmap, hslots]
  by_cases hs : u.innermost = s
  · subst hs
    have hdefined : ((u.define name).table.scope u.innermost).defined = (u.table.scope u.innermost).defined + 1 := by
      rw [define, defined_define, owner_inside hinside,
        if_pos ⟨rfl, h.known _ (List.mem_cons_self ..)⟩]
    have hlast : [u.next].filter (·.scope = u.innermost) = [u.next] := by simp [next]
    rw [hdefined, List.range'_concat, hlast, List.map_singleton, slotOf_next, nextIndex_eq, Nat.one_mul]
  · have hdefined : ((u.define name).table.scope s).defined = (u.table.scope s).defined :=
      defined_define_inside hinside hs name
    have hlast : [u.next].filter (·.scope = s) = [] := by simp [next, hs]
    rw [hdefined, hlast, List.map_nil, List.append_nil]

/-- The slots of a root after a definition. -/
theorem Kept.globals_define (hroot : u.table.parentOf s = none) :
    ((u.define name).table.scope s).peak = ((u.define name).table.scope s).defined ∧
      ((u.define name).madeBelow s).map (u.define name).slotOf =
        List.range ((u.define name).table.scope s).defined := by
  have hi := h.known u.innermost (List.mem_cons_self ..)
  have hmap := h.map_slotOf_define name (l := u.madeBelow s) fun d hd => (List.mem_filter.1 hd).1
  have hhome : ∀ d, (u.define name).homeOf d = u.homeOf d := fun d => (u.alike_define name d.scope).home
  have hself : u.table.home s = s := home_of_parentOf_none hroot
  have hbelow : (u.define name).madeBelow s = u.madeBelow s ++ [u.next].filter (u.homeOf · = s) := by
    rw [madeBelow, made_define, List.filter_append, madeBelow]
    simp only [hhome]
  rw [hbelow, List.map_append, hmap, h.globals s hroot]
  by_cases hs : u.table.home u.innermost = s
  · have hout : u.table.enclosing u.innermost = none := by
      rw [← u.table.enclosing_home, hs, enclosing_of_parentOf_none hroot]
    have hnext : u.table.nextIndex u.innermost = (u.table.scope s).defined := by
      rw [nextIndex_outside hout h.blocks, hs]
    have hsize : s < u.table.scopes.size := hs ▸ Nat.lt_of_le_of_lt (home_le _ _) hi
    have hdefined : ((u.define name).table.scope s).defined = (u.table.scope s).defined + 1 := by
      rw [define, defined_define, owner_outside hout, if_pos ⟨hs, hsize⟩]
    have hpeak : ((u.define name).table.scope s).peak = (u.table.scope s).defined + 1 := by
      have hhomePeak := peak_define_home _ hi name
      rw [hs, hnext, h.peak s hroot] at hhomePeak
      rw [define, hhomePeak]
      exact Nat.max_eq_right (Nat.le_succ _)
    refine ⟨by rw [hpeak, hdefined], ?_⟩
    have hlast : [u.next].filter (u.homeOf · = s) = [u.next] := by simp [homeOf, next, hs]
    rw [hdefined, List.range_succ, hlast, List.map_singleton, slotOf_next, hnext]
  · have hne : u.table.home s ≠ u.table.home u.innermost := by rwa [hself, ne_comm]
    have hdefined : ((u.define name).table.scope s).defined = (u.table.scope s).defined :=
      defined_define_of_home_ne hne name
    refine ⟨?_, ?_⟩
    · rw [hdefined, ← h.peak s hroot]
      exact peak_define_of_home_ne hi name hne
    · have hlast : [u.next].filter (u.homeOf · = s) = [] := by simp [homeOf, next, hs]
      rw [hdefined, hlast, List.map_nil, List.append_nil]

theorem Kept.define : (u.define name).Kept := by
  have hi := h.known u.innermost (List.mem_cons_self ..)
  have hsymbols : (u.define name).table.symbols.size = u.table.symbols.size + 1 := by
    rw [Session.define, symbols_define, Array.size_push]
  constructor
  case known => exact fun s hs => by rw [Session.define, size_scopes_define]; exact h.known s hs
  case nested => exact h.nested.imp fun s s' hn => ⟨hn.1, fun p hp => hn.2 p ((u.alike_define name s).parentOf ▸ hp)⟩
  case scopes =>
    intro d hd
    rw [Session.define, size_scopes_define]
    rcases mem_made_define.1 hd with hd | rfl
    · exact h.scopes d hd
    · exact hi
  case ids =>
    intro d hd
    rw [hsymbols]
    rcases mem_made_define.1 hd with hd | rfl
    · exact Nat.lt_succ_of_lt (h.ids d hd)
    · exact Nat.lt_succ_self _
  case storage =>
    intro d hd
    rw [(u.alike_define name d.scope).storage]
    rcases mem_made_define.1 hd with hd | rfl
    · rw [Session.define, symbol_define, if_neg (Nat.ne_of_lt (h.ids d hd))]
      exact h.storage d hd
    · rw [symbol_next]
      rfl
  case complete =>
    intro id hid hstorage
    rw [made_define]
    rw [Session.define, symbol_define] at hstorage
    split at hstorage
    · next heq => exact ⟨u.next, by simp, heq.symm⟩
    · next hne =>
      rw [hsymbols] at hid
      have hlt : id < u.table.symbols.size := Nat.lt_of_le_of_ne (Nat.lt_succ_iff.1 hid) hne
      obtain ⟨d, hd, heq⟩ := h.complete id hlt hstorage
      exact ⟨d, List.mem_append_left _ hd, heq⟩
  case consecutive =>
    intro s hinside hopen
    rw [(u.alike_define name s).enclosing] at hinside
    exact h.consecutive_define name hinside (hopen.imp_right fun hb => (u.alike_define name s s (Nat.le_refl s)).2 ▸ hb)
  case below =>
    intro d hd
    rw [homeOf, (u.alike_define name d.scope).home]
    rcases mem_made_define.1 hd with hd | rfl
    · rw [h.slotOf_define name hd]
      exact Nat.lt_of_lt_of_le (h.below d hd) (peak_le_define _ _ _ _)
    · rw [slotOf_next]
      exact nextIndex_lt_peak_define u.table hi name
  case blocks =>
    intro s hout hne
    rw [(u.alike_define name s).enclosing] at hout
    rw [(u.alike_define name s).home] at hne
    rw [Session.define, defined_define, if_neg]
    · exact h.blocks s hout hne
    · rintro ⟨rfl, -⟩
      by_cases hin : u.table.enclosing u.innermost = none
      · rw [owner_outside hin] at hne
        exact hne (u.table.home_home _).symm
      · rw [owner_inside hin] at hout
        exact hin hout
  case peak => exact fun s hroot => (h.globals_define name ((u.alike_define name s).parentOf ▸ hroot)).1
  case globals => exact fun s hroot => (h.globals_define name ((u.alike_define name s).parentOf ▸ hroot)).2

end

theorem Kept.apply {use : TableUse} (huse : u.apply use = some u') : u'.Kept := by
  have hi := h.known u.innermost (List.mem_cons_self ..)
  -- Of the uses that neither open nor define, only the table matters.
  have hsettle : ∀ {t : SymbolTable}, u.table.Settled t → Kept { u with table := t } := fun hs =>
    h.settle hs rfl (fun _ => .inl) (fun s hmem => Nat.lt_of_lt_of_le (h.known s hmem) hs.scopes)
      (h.nested.imp_of_mem_imp fun s s' hmem _ hn => ⟨hn.1, fun p hp =>
        hn.2 p ((hs.alike (h.known s hmem)).parentOf ▸ hp)⟩)
  cases use with
  | fork isBlock =>
    cases huse
    refine h.goInto (u.table.settled_addScope rfl rfl) rfl ?_ ?_
    · simp [fork, addScope]
    · intro p hp
      change p ∈ (u.table.fork u.innermost isBlock).2.parentOf u.table.scopes.size at hp
      rw [parentOf_fork hi] at hp
      cases hp
      rfl
  | openRoot =>
    cases huse
    refine h.goInto (u.table.settled_addScope rfl rfl) rfl ?_ ?_
    · simp [newRoot, addScope]
    · intro p hp
      change p ∈ u.table.newRoot.2.parentOf u.table.scopes.size at hp
      rw [parentOf_newRoot] at hp
      cases hp
  | close =>
    rw [Session.apply] at huse
    split at huse
    · cases huse
    · next hrest =>
      cases huse
      exact h.close hrest
  | define name =>
    cases huse
    exact h.define name
  | defineBuiltin s index name =>
    cases huse
    exact hsettle (u.table.settled_defineBuiltin s index name)
  | resolve s name =>
    rw [Session.apply] at huse
    split at huse
    · cases huse
      exact h
    · next hresolve =>
      cases huse
      exact hsettle (settled_resolveFrom hresolve)
  | markAssigned id =>
    cases huse
    exact hsettle (u.table.settled_markAssigned id)

theorem Kept.applyAll {uses : List TableUse} (huses : u.applyAll uses = some u') : u'.Kept := by
  induction uses generalizing u with
  | nil =>
    cases huses
    exact h
  | cons use rest ih =>
    obtain ⟨v, hv, hrest⟩ := Option.bind_eq_some_iff.1 huses
    exact ih (h.apply hv) hrest

end

/-! ### Soundness -/

/-- Of two open scopes of one function, the inner one counts on after the outer one. -/
theorem nextIndex_le_firstSlot (hl : l.IsChain (Nested t)) (hs : s ∈ l) (hr : r ∈ l) (hlt : s < r)
    (hhome : t.home s = t.home r) : t.nextIndex s ≤ t.firstSlot r := by
  induction l generalizing r with
  | nil => cases hr
  | cons a rest ih =>
    rcases List.mem_cons.1 hr with rfl | hrest
    · have hs : s ∈ rest := (List.mem_cons.1 hs).resolve_left (Nat.ne_of_lt hlt)
      have hinner : t.home s < r := Nat.lt_of_le_of_lt (home_le t s) hlt
      -- The scope is a block, since otherwise it were its own home.
      have hblock : (t.scope r).isBlock = true := by
        by_contra hb
        rw [hhome, home_of_not_block (by simpa using hb)] at hinner
        exact Nat.lt_irrefl _ hinner
      cases hparent : t.parentOf r with
      | none =>
        rw [hhome, home_of_parentOf_none hparent] at hinner
        exact absurd hinner (Nat.lt_irrefl _)
      | some p =>
        obtain ⟨p, hp⟩ := p
        cases rest with
        | nil => cases hs
        | cons outer rest =>
          obtain rfl : p = outer := (List.isChain_cons_cons.1 hl).1.2 ⟨p, hp⟩ hparent
          have hfirst : t.firstSlot r = t.nextIndex p := by
            rw [firstSlot, hparent]
            simp [hblock]
          rw [hfirst]
          rcases List.mem_cons.1 hs with rfl | hmem
          · exact Nat.le_refl _
          · rw [home_block hparent hblock] at hhome
            have := ih hl.tail hs (List.mem_cons_self ..) (lt_of_nested hl.tail hmem) hhome
            rw [t.nextIndex_eq p]
            exact Nat.le_add_right_of_le this
    · rcases List.mem_cons.1 hs with rfl | hs
      · exact absurd (lt_of_nested hl hrest) (Nat.lt_asymm hlt)
      · exact ih hl.tail hs hrest hlt hhome

/-- A definition is a variable of a function. -/
def IsLocal (u : Session) (d : Definition) : Prop := (u.table.symbol d.id).storage = .slot

/-- Slots are handed out soundly. -/
structure SlotsSound (u : Session) : Prop where
  /-- Variables of one function whose scopes are open have slots of their own. -/
  apart : ∀ d ∈ u.made, ∀ e ∈ u.made, d ≠ e → u.IsLocal d → u.IsLocal e → d.scope ∈ u.opened →
    e.scope ∈ u.opened → u.homeOf d = u.homeOf e → u.slotOf d ≠ u.slotOf e
  /-- A function has room for every variable that was ever defined in it or in its blocks. -/
  room : ∀ d ∈ u.made, u.IsLocal d → u.slotOf d < u.table.slots (u.homeOf d)
  /-- What is defined in a function itself, its parameters first, gets the slots 0, 1, 2 and so on. -/
  inOrder : ∀ f, u.table.parentOf f ≠ none → (u.table.scope f).isBlock = false →
    (u.madeIn f).map u.slotOf = List.range (u.madeIn f).length
  /-- What is defined in the root or its blocks are globals, which are counted through. -/
  globals : (u.madeBelow root).map u.slotOf = List.range (u.table.slots root) ∧
    ∀ d ∈ u.madeBelow root, (u.table.symbol d.id).storage = .global
  /-- There are no other variables. -/
  complete : ∀ id < u.table.symbols.size,
    (u.table.symbol id).storage = .slot ∨ (u.table.symbol id).storage = .global → ∃ d ∈ u.made, d.id = id

theorem Kept.inside_of_isLocal (h : u.Kept) (hd : d ∈ u.made) (hlocal : u.IsLocal d) :
    u.table.enclosing d.scope ≠ none := by
  intro hout
  rw [IsLocal, h.storage d hd, owner_outside hout] at hlocal
  cases hlocal

theorem Kept.slot_bounds (h : u.Kept) (hd : d ∈ u.made) (hlocal : u.IsLocal d) (hopen : d.scope ∈ u.opened) :
    u.table.firstSlot d.scope ≤ u.slotOf d ∧ u.slotOf d < u.table.nextIndex d.scope := by
  have hmem : u.slotOf d ∈ (u.madeIn d.scope).map u.slotOf :=
    List.mem_map_of_mem (List.mem_filter.2 ⟨hd, by simp⟩)
  rw [h.consecutive d.scope (h.inside_of_isLocal hd hlocal) (.inl hopen), List.mem_range'_1] at hmem
  rwa [u.table.nextIndex_eq]

theorem Kept.apart (h : u.Kept) {e : Definition} (hd : d ∈ u.made) (he : e ∈ u.made) (hne : d ≠ e)
    (hdlocal : u.IsLocal d) (helocal : u.IsLocal e) (hdopen : d.scope ∈ u.opened) (heopen : e.scope ∈ u.opened)
    (hhome : u.homeOf d = u.homeOf e) : u.slotOf d ≠ u.slotOf e := by
  have hdslot := h.slot_bounds hd hdlocal hdopen
  have heslot := h.slot_bounds he helocal heopen
  rcases Nat.lt_trichotomy d.scope e.scope with hlt | heq | hlt
  · have := nextIndex_le_firstSlot h.nested hdopen heopen hlt hhome
    omega
  · -- In one scope the slots follow each other.
    have hnodup : ((u.madeIn d.scope).map u.slotOf).Nodup := by
      rw [h.consecutive d.scope (h.inside_of_isLocal hd hdlocal) (.inl hdopen)]
      exact List.nodup_range'
    exact fun hslot => hne (List.inj_on_of_nodup_map hnodup (List.mem_filter.2 ⟨hd, by simp⟩)
      (List.mem_filter.2 ⟨he, by simp [heq]⟩) hslot)
  · have := nextIndex_le_firstSlot h.nested heopen hdopen hlt hhome.symm
    omega

theorem Kept.slotsSound (h : u.Kept) : u.SlotsSound := by
  constructor
  case apart => exact fun d hd e he hne hdlocal helocal => h.apart hd he hne hdlocal helocal
  case room => exact fun d hd _ => h.below d hd
  case inOrder =>
    intro f hparent hblock
    have hinside : u.table.enclosing f ≠ none := by
      rw [enclosing]
      cases hp : u.table.parentOf f with
      | none => exact absurd hp hparent
      | some p => simp [hblock]
    have hslots := h.consecutive f hinside (.inr hblock)
    rw [firstSlot_of_not_block hblock, ← List.range_eq_range'] at hslots
    have hlength : (u.madeIn f).length = (u.table.scope f).defined := by
      simpa using congrArg List.length hslots
    rw [hlength, hslots]
  case globals =>
    have hroot : u.table.parentOf root = none := by
      rw [parentOf]
      split
      · exact dif_neg (Nat.not_lt_zero _)
      · rfl
    refine ⟨?_, fun d hd => ?_⟩
    · rw [h.globals _ hroot, slots, h.peak _ hroot]
    · obtain ⟨hd, hhome⟩ := List.mem_filter.1 hd
      have hout : u.table.enclosing d.scope = none := by
        have hhome : u.table.home d.scope = root := of_decide_eq_true hhome
        rw [← u.table.enclosing_home, hhome]
        exact enclosing_of_parentOf_none hroot
      rw [h.storage d hd, owner_outside hout]
  case complete => exact h.complete

/-- Scopes and symbols stay what they are. -/
theorem later_apply {use : TableUse} (huse : u.apply use = some u') : u.table.Later u'.table := by
  cases use with
  | fork isBlock | openRoot =>
    cases huse
    exact later_addScope _ _
  | close =>
    rw [apply] at huse
    split at huse <;> cases huse
    exact .refl _
  | define name =>
    cases huse
    exact later_define _ _ _
  | defineBuiltin s index name =>
    cases huse
    exact (u.table.settled_defineBuiltin s index name).toLater
  | resolve s name =>
    rw [apply] at huse
    split at huse <;> cases huse
    · exact .refl _
    · next hresolve => exact (settled_resolveFrom hresolve).toLater
  | markAssigned id =>
    cases huse
    exact later_markAssigned _ _

end

/-- However a table is used, its slots are handed out soundly, and no further use changes the slot or the
kind of a symbol that is there. -/
theorem slots_sound (uses : List TableUse) (u : Session) (huses : ({} : Session).applyAll uses = some u) :
    u.SlotsSound ∧ ∀ use u', u.apply use = some u' → ∀ id < u.table.symbols.size,
      (u'.table.symbol id).index = (u.table.symbol id).index ∧
        (u'.table.symbol id).storage = (u.table.symbol id).storage :=
  ⟨(kept_start.applyAll huses).slotsSound, fun _ _ huse _ hid => ⟨(later_apply huse).index hid, (later_apply huse).storage hid⟩⟩

/-- A global, a block that borrows from it, and a function with a parameter and two blocks after each
other, of which the second one is still open. -/
def blocksInFunction : List TableUse :=
  [.define "g", .fork true, .define "h", .close, .fork false, .define "x", .markAssigned 2, .fork true,
    .define "y", .close, .fork true, .define "z", .resolve 4 "x"]

theorem slots_sound_blocksInFunction :
    ∃ u, ({} : Session).applyAll blocksInFunction = some u ∧ u.SlotsSound ∧
      u.made.map u.slotOf = [0, 1, 0, 1, 1] := by
  have huses : (({} : Session).applyAll blocksInFunction).map (fun u => u.made.map u.slotOf) =
      some [0, 1, 0, 1, 1] := by cbv
  obtain ⟨u, hu, hslots⟩ := Option.map_eq_some_iff.1 huses
  exact ⟨u, hu, (slots_sound blocksInFunction u hu).1, hslots⟩

end Session

end ScriptEngine
