import ScriptEngine.Proofs.Semantics.Scoping
/-!
# What code a program without functions becomes

The code of a main program without functions works on values and reads variables, and every operand
fits into its width and names a constant that is there, which is a literal. Outside all loops it never
leaves one. Main statement: `Lowers.emits`.
-/

namespace ScriptEngine

open CompileM (maxWide maxNarrow)

variable {c : Code} {o : CompileOptions} {ctx : Context} {env : Env} {op : Opcode} {φ : Phrase} {pos : Pos}
  {σ σ' : Stage} {x : SymbolId}

variable {n slot : Nat}

open Opcode

/-! ### Variables -/

namespace Stage

variable {hi : Nat}

theorem draws_storeGlobal (hslot : slot ≤ maxWide) (hn : n ≤ maxNarrow) :
    (storeGlobal pos slot n).All (Draws 0 hi) := by
  rw [storeGlobal]
  split
  · exact draws_wide rfl rfl rfl hslot
  · have hslot : slot < capacity 2 := Nat.lt_succ_of_le hslot
    have hn : n < capacity 1 := Nat.lt_succ_of_le hn
    exact draws_plain rfl rfl ⟨hslot, hn, trivial⟩

theorem stays_storeGlobal : (storeGlobal pos slot n).Stays := by
  rw [storeGlobal]
  split <;> trivial

theorem Stands.draws_bind {w : Code} (h : σ.Stands x (.slot slot))
    (hbind : σ.bind pos x = some (w, σ')) : w.All (Draws 0 hi) := by
  obtain ⟨hslot, rfl, -⟩ := h.bind hbind
  exact draws_storeGlobal hslot (Nat.zero_le _)

theorem Sees.draws_bindItem {i : Ident} (h : σ.Sees env) (hop : op.Draws 0 hi [])
    (hbind : σ.bindItem pos x op i = some (c, σ')) : c.All (Draws 0 hi) := by
  obtain ⟨-, rfl, -⟩ | ⟨-, hfits, w, hstore, rfl⟩ := bindItem_cases hbind
  · trivial
  · exact ⟨Code.draws_load hfits, hop, (h.stands_define i.name).draws_bind hstore⟩

theorem Sees.draws_bindItems {key : Ident} {value : Option Ident} (h : σ.Sees env)
    (hit : σ.Stands x (.slot slot)) (hbind : σ.bindItems pos x key value = some (c, σ')) : c.All (Draws 0 hi) := by
  cases value with
  | none => exact h.draws_bindItem (draws_none rfl rfl rfl) hbind
  | some value =>
    obtain ⟨a, σ1, b, hkey, hvalue, rfl⟩ := bindItems_some hbind
    have hfollows := (h.bindItem hit hkey).1
    exact ⟨h.draws_bindItem (draws_none rfl rfl rfl) hkey,
      hfollows.sees.draws_bindItem (draws_none rfl rfl rfl) hvalue⟩

end Stage

theorem Expr.place_le_of_isShortTarget {e : Expr} {name : String} (h : e.isShortTarget = true)
    (hplace : e.place? = some (name, n)) : n ≤ maxNarrow := by
  rw [Expr.isShortTarget, hplace] at h
  simpa using (Bool.and_eq_true_iff.1 h).2

/-! ### Programs -/

/-- All constants are what literals stand for. -/
def AllLiteral (cs : Array Value) : Prop := ∀ (i : Nat) v, cs[i]? = some v → v.IsLiteral

theorem AllLiteral.push {cs : Array Value} {v : Value} (h : AllLiteral cs) (hv : v.IsLiteral) :
    AllLiteral (cs.push v) := by
  intro i u hu
  rw [Array.getElem?_push] at hu
  split at hu
  · cases hu
    exact hv
  · exact h i u hu

theorem Stage.Later.literals (h : σ.Later σ') (hσ : AllLiteral σ.constants) : AllLiteral σ'.constants := by
  induction h with
  | refl => exact hσ
  | resolve _ hresolve ih => rwa [(renames_resolve hresolve).constants]
  | addConstant _ hv ih => exact ih.push hv

/-- Code that is made on the way to a stage that sees an environment: it works on values and reads
variables, the constants that are added are literals, and outside all loops it leaves none. -/
structure Stage.Emits (inLoop : Bool) (σ σ' : Stage) (env : Env) (c : Code) : Prop extends σ.Follows σ' env where
  kept : KeptIn σ.constants σ'.constants
  literals : AllLiteral σ.constants → AllLiteral σ'.constants
  draws : c.All (Draws 0 σ'.constants.size)
  stays : inLoop = false → c.Stays

namespace Stage

variable {inLoop : Bool} {σ1 σ2 : Stage} {env1 env2 env' : Env} {a b : Code}

theorem Follows.emits (h : σ.Follows σ' env) (hsame : σ'.constants = σ.constants)
    (hdraws : c.All (Draws 0 σ'.constants.size)) (hstays : inLoop = false → c.Stays) : σ.Emits inLoop σ' env c where
  toFollows := h
  kept := .ofEq hsame
  literals hσ := by rwa [hsame]
  draws := hdraws
  stays := hstays

theorem Sees.emits_nop (h : σ.Sees env) : σ.Emits inLoop σ env .nop := h.refl.emits rfl trivial fun _ => trivial

theorem Sees.emits_instr {operands : List Nat} (h : σ.Sees env) (hop : op.Draws 0 σ.constants.size operands) :
    σ.Emits inLoop σ env (.instr pos op operands) :=
  h.refl.emits rfl hop fun _ => trivial

theorem Drawn.emits (h : σ.Drawn 0 σ' c) (hsees : σ.Sees env) : σ.Emits inLoop σ' env c :=
  ⟨h.later.follows hsees, h.later.constants, h.later.literals, h.draws (Nat.zero_le _), fun _ => h.stays⟩

theorem Follows.emits_store {isDefine : Bool} {place : Place} (h : σ.Follows σ1 env)
    (hsame : σ1.constants = σ.constants) (hx : σ1.Stands x place) (hn : n ≤ maxNarrow)
    (hstore : σ1.store pos isDefine n x = some (c, σ')) : σ.Emits inLoop σ' env c := by
  obtain ⟨slot, -, hslot, rfl, rfl⟩ := hx.store hstore
  exact h.emits hsame (draws_storeGlobal hslot hn) fun _ => stays_storeGlobal

theorem Sees.emits_bind (h : σ.Sees env) (hx : σ.Stands x (.slot slot))
    (hbind : σ.bind pos x = some (c, σ')) : σ.Emits inLoop σ' env c := by
  obtain ⟨hslot, rfl, rfl⟩ := hx.bind hbind
  exact h.refl.emits rfl (draws_storeGlobal hslot (Nat.zero_le _)) fun _ => stays_storeGlobal

namespace Emits

theorem seq (ha : σ.Emits inLoop σ1 env1 a) (hb : σ1.Emits inLoop σ2 env2 b) : σ.Emits inLoop σ2 env2 (a.seq b) where
  toFollows := ha.toFollows.trans hb.toFollows
  kept := ha.kept.trans hb.kept
  literals hσ := hb.literals (ha.literals hσ)
  draws := ⟨ha.draws.later hb.kept.size_le, hb.draws⟩
  stays hout := ⟨ha.stays hout, hb.stays hout⟩

theorem skip {branch : Branch} (h : σ.Emits inLoop σ' env c) : σ.Emits inLoop σ' env (.skip pos branch c) :=
  { h with draws := h.draws, stays := h.stays }

theorem choose (ha : σ.Emits inLoop σ1 env1 a) (hb : σ1.Emits inLoop σ2 env2 b) :
    σ.Emits inLoop σ2 env2 (.choose pos a b) :=
  { ha.seq hb with draws := (ha.seq hb).draws, stays := (ha.seq hb).stays }

/-- Exits of the body leave the loop itself. -/
theorem loop {tests : Bool} (ha : σ.Emits inLoop σ1 env1 a) (hb : σ1.Emits true σ2 env2 b)
    (hc : σ2.Emits inLoop σ' env c) : σ.Emits inLoop σ' env (.loop pos a tests b c) where
  toFollows := ha.toFollows.trans (hb.toFollows.trans hc.toFollows)
  kept := ha.kept.trans (hb.kept.trans hc.kept)
  literals hσ := hc.literals (hb.literals (ha.literals hσ))
  draws := ⟨ha.draws.later (hb.kept.trans hc.kept).size_le, hb.draws.later hc.kept.size_le, hc.draws⟩
  stays hout := ⟨ha.stays hout, hc.stays hout⟩

/-- Back in the scope around a block. -/
theorem leaving (hinner : (σ.enter true).Emits inLoop σ' env' c) (h : σ.Sees env) :
    σ.Emits inLoop (σ'.returnTo σ.scope) (env.leaving env') c :=
  ⟨h.leaving hinner.toFollows, hinner.kept, hinner.literals, hinner.draws, hinner.stays⟩

/-- Names were defined before. -/
theorem after (h : σ1.Emits inLoop σ' env c) (hfirst : σ.Follows σ1 env1) (hsame : σ1.constants = σ.constants) :
    σ.Emits inLoop σ' env c :=
  { h with
    toFollows := hfirst.trans h.toFollows
    kept := (KeptIn.ofEq hsame).trans h.kept
    literals := fun hσ => h.literals (by rwa [hsame]) }

end Emits

end Stage

/-- Compiling a statement of the main program leads to a stage that sees what the interpreter knows
there, and its code works on values and reads variables. -/
theorem Lowers.emits (h : Lowers o ctx φ σ c σ') (hkind : ctx.kind = .main) (hφ : φ.isStructured = true)
    (hsees : σ.Sees env) : σ.Emits ctx.inLoop σ' (φ.after env) c := by
  have hexpr {φ : Phrase} {σ σ1 : Stage} {c : Code} {ctx : Context} {env : Env} (h : Lowers o ctx φ σ c σ1)
      hφ hsees : σ.Emits ctx.inLoop σ1 env c := (h.drawn 0 hφ).emits hsees
  induction h generalizing env with
  | exprStmt hvalue =>
    have hvalue := hexpr hvalue hφ hsees
    exact hvalue.seq (hvalue.sees.emits_instr (draws_none rfl rfl rfl))
  | define hplace hnew hvalue hfunction hstore =>
    obtain ⟨-, hv⟩ := Phrase.isStructured_assign.1 hφ
    rw [hsees.lookedUp] at hvalue
    have hvalue := hexpr hvalue hv hsees
    simp only [Phrase.after, Stmt.after, hplace]
    exact hvalue.seq ((hvalue.sees.define _).emits_store rfl (hvalue.sees.stands_define _) (Nat.zero_le _) hstore)
  | defineFunction hplace hnew hvalue hfunction hstore =>
    obtain ⟨-, hv⟩ := Phrase.isStructured_assign.1 hφ
    exact absurd hv (Expr.not_isFirstOrder_of_isFunction hfunction)
  | assign hplace hresolve hvalue hselectors hstore =>
    obtain ⟨hshort, hv⟩ := Phrase.isStructured_assign.1 hφ
    obtain ⟨rfl, place, hstands, -⟩ := hsees.resolve hresolve
    have hvalue := hexpr hvalue hv hsees
    have hpath := hexpr hselectors (Expr.isFirstOrder_of_isShortTarget hshort) hvalue.sees
    have hstands := hstands.follows (hvalue.toFollows.trans hpath.toFollows)
    exact hvalue.seq (hpath.seq (hpath.sees.refl.emits_store rfl hstands
      (Expr.place_le_of_isShortTarget hshort hplace) hstore))
  | combine hplace hresolve hread hvalue hselectors hstore =>
    obtain ⟨hshort, hv⟩ := Phrase.isStructured_assign.1 hφ
    have ht := Expr.isFirstOrder_of_isShortTarget hshort
    obtain ⟨rfl, place, hstands, -⟩ := hsees.resolve hresolve
    have hread := hexpr hread ht hsees
    have hvalue := hexpr hvalue hv hread.sees
    have hpath := hexpr hselectors ht hvalue.sees
    have hstands := hstands.follows (hread.toFollows.trans (hvalue.toFollows.trans hpath.toFollows))
    exact hread.seq (hvalue.seq ((hvalue.sees.emits_instr (draws_binary _)).seq
      (hpath.seq (hpath.sees.refl.emits_store rfl hstands (Expr.place_le_of_isShortTarget hshort hplace) hstore))))
  | incDec hassign ih => exact ih hkind (Phrase.isStructured_assign.2 ⟨hφ, rfl⟩) hsees
  | blockStmt _ ih | optionalSome _ ih => exact ih hkind hφ hsees
  | conditionSome hcond => exact hexpr hcond hφ hsees
  | ifThen hinit hcond hbody ihi _ ihb =>
    simp only [Phrase.isStructured, Stmt.isStructured, Bool.and_eq_true] at hφ
    have hinit := ihi hkind hφ.1.1.1 hsees.enter
    have hcond := hexpr hcond hφ.1.1.2 hinit.sees
    exact (hinit.seq (hcond.seq (ihb hkind hφ.1.2 hcond.sees).skip)).leaving hsees
  | ifElse hinit hcond hbody hother ihi _ ihb iho =>
    simp only [Phrase.isStructured, Stmt.isStructured, Bool.and_eq_true] at hφ
    have hinit := ihi hkind hφ.1.1.1 hsees.enter
    have hcond := hexpr hcond hφ.1.1.2 hinit.sees
    have hbody := ihb hkind hφ.1.2 hcond.sees
    exact (hinit.seq (hcond.seq (hbody.choose (iho hkind hφ.2 hbody.sees)))).leaving hsees
  | loop hinit hcond hbody hpost ihi ihc ihb ihp =>
    simp only [Phrase.isStructured, Stmt.isStructured, Bool.and_eq_true] at hφ
    have hinit := ihi hkind hφ.1.1.1 hsees.enter
    have hcond := ihc hkind hφ.1.1.2 hinit.sees
    have hbody := ihb hkind hφ.2 hcond.sees
    exact (hinit.seq (hcond.loop hbody (ihp hkind hφ.1.2 hbody.sees))).leaving hsees
  | forIn hdefine hiterable hbind hfits hitems hbody _ ihb =>
    obtain ⟨he, hb⟩ := Bool.and_eq_true_iff.1 hφ
    have hit := hsees.enter.define ":it"
    have hstands := hsees.enter.stands_define ":it"
    have hsame := congrArg (fun r => r.2.constants) hdefine.symm
    rw [hdefine] at hit hstands
    have hiterable := hexpr hiterable he hit.sees
    have hstands := hstands.follows hiterable.toFollows
    obtain ⟨-, -, rfl⟩ := hstands.bind hbind
    have hitems : Stage.Emits true _ _ _ _ := (hiterable.sees.bindItems hstands hitems).1.emits
      (Stage.renames_bindItems hitems).constants (hiterable.sees.draws_bindItems hstands hitems) fun h => by cases h
    have hbody := hitems.seq (ihb hkind hb hitems.sees)
    refine (Stage.Emits.after ?_ hit hsame).leaving hsees
    exact hiterable.seq ((hiterable.sees.emits_instr (draws_none rfl rfl rfl)).seq
      ((hiterable.sees.emits_bind hstands hbind).seq (((hiterable.sees.refl.emits rfl (Code.draws_load hfits)
        fun _ => trivial).seq (hiterable.sees.emits_instr (draws_none rfl rfl rfl))).loop hbody hbody.sees.emits_nop)))
  | breakLoop hloop | continueLoop hloop =>
    exact hsees.refl.emits rfl trivial fun hout => absurd hloop (by simp [hout])
  | empty | optionalNone | conditionNone | stmtsNil | blockNil => exact hsees.emits_nop
  | stmtsLast hleaves hstmt ih =>
    have hafter := ih hkind (Bool.and_eq_true_iff.1 hφ).1 hsees
    rw [hkind] at hleaves
    simpa only [Phrase.after, Stmt.afterAll, hleaves, if_true] using hafter
  | stmtsCons hleaves hstmt hrest ihs ihr =>
    obtain ⟨hs, hr⟩ := Bool.and_eq_true_iff.1 hφ
    rw [hkind] at hleaves
    have hfirst := ihs hkind hs hsees
    have hafter := hfirst.seq (ihr hkind hr hfirst.sees)
    simpa only [Phrase.after, Stmt.afterAll, hleaves, Bool.false_eq_true, if_false] using hafter
  | block hne hbody ih => exact (ih hkind hφ hsees.enter).leaving hsees
  | _ => cases hφ

theorem Lowers.sees (h : Lowers o ctx φ σ c σ') (hkind : ctx.kind = .main) (hφ : φ.isStructured = true)
    (hsees : σ.Sees env) : σ.Follows σ' (φ.after env) := (h.emits hkind hφ hsees).toFollows

/-! ### Executions that end normally -/

/-- An execution that does not leave the loop around it. -/
def Exec.EndsHere (x : Exec Exit) : Prop := ∀ m e m', x m = .ok e m' → e = .next

namespace Exec.EndsHere

variable {x y : Exec Exit}

theorem next : EndsHere (return .next) := by
  intro m e m' h
  cases h
  rfl

theorem bind {α : Type} {z : Exec α} {f : α → Exec Exit} (hf : ∀ a, EndsHere (f a)) : EndsHere (z >>= f) := by
  intro m e m' h
  change EStateM.bind z f m = _ at h
  rw [EStateM.bind] at h
  split at h
  · next a m1 _ => exact hf a m1 e m' h
  · cases h

theorem andThen (hx : EndsHere x) (hy : EndsHere y) : EndsHere (Exit.andThen x y) := by
  intro m e m' h
  change EStateM.bind x _ m = _ at h
  rw [EStateM.bind] at h
  split at h
  · next e1 m1 hfirst =>
    obtain rfl := hx m e1 m1 hfirst
    exact hy m1 e m' h
  · cases h

theorem thenAgain (hy : EndsHere y) : EndsHere (Exit.thenAgain x y) := by
  refine bind fun e => ?_
  cases e with
  | broke => exact next
  | next | continued => exact hy

theorem tested (tests : Bool) (hx : EndsHere x) : EndsHere (tested tests x) := by
  rw [ScriptEngine.tested]
  split
  · refine bind fun b => ?_
    cases b
    · exact next
    · exact hx
  · exact hx

theorem rounds {head post : Exec Exit} (tests : Bool) (body : Exec Exit) (hhead : EndsHere head)
    (hpost : EndsHere post) (n : Nat) : EndsHere (rounds head tests body post n) := by
  induction n with
  | zero =>
    intro m e m' h
    cases h
  | succ n ih => exact hhead.andThen (.tested tests (.thenAgain (hpost.andThen ih)))

end Exec.EndsHere

theorem Code.Stays.endsHere (h : c.Stays) (s : Setting) (fuel : Nat) : Exec.EndsHere (c.exec s fuel) := by
  induction c with
  | nop => exact .next
  | instr pos op operands => exact .bind fun _ => .next
  | seq a b iha ihb => exact (iha h.1).andThen (ihb h.2)
  | skip pos branch body ih =>
    refine .bind fun b => ?_
    cases b
    · exact .next
    · exact ih h
  | choose pos yes no ihy ihn =>
    refine .bind fun b => ?_
    cases b
    · exact ihn h.2
    · exact ihy h.1
  | loop pos head tests body post ihh _ ihp => exact .rounds tests _ (ihh h.1) (ihp h.2) fuel
  | leave => exact h.elim

end ScriptEngine
