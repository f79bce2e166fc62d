import ScriptEngine.Proofs.Expression.Lowered
import ScriptEngine.Proofs.Expression.Outcome
/-!
# The code of an expression yields its value

An induction over what a compilation produces: the code of every expression without calls yields what
the evaluator gives (`Lowers.yields`), provided that the code of names does. The stack has room enough
if the height of the expression fits.
-/

namespace ScriptEngine

open Exec Expr

variable {s : Setting} {fuel : Nat} {full : Prop} {m : Machine} {look : String → HeapM Value}

/-- Code yields what the evaluation of a piece of a syntax tree gives. -/
def Phrase.Yields (s : Setting) (fuel : Nat) (full : Prop) (m : Machine) (look : String → HeapM Value)
    (c : Code) : Phrase → Prop
  | .expr e => ∀ h vs, HasRoom s full m (vs.length + e.height) →
      ScriptEngine.Yields full m (fun v => (Exit.next, v :: vs)) (c.exec s fuel (m.working h vs))
        (e.eval s.limits look h)
  | .bound _ e => ∀ h vs, HasRoom s full m (vs.length + boundHeight e) →
      ScriptEngine.Yields full m (fun v => (Exit.next, v :: vs)) (c.exec s fuel (m.working h vs))
        (evalBound s.limits look e h)
  | .exprs es => ∀ h vs, HasRoom s full m (vs.length + heights es) →
      ScriptEngine.Yields full m (fun items => (Exit.next, items.reverse ++ vs))
        (c.exec s fuel (m.working h vs)) (evalAll s.limits look es h)
  | .entries es => ∀ h vs, HasRoom s full m (vs.length + MapEntry.heights es) →
      ScriptEngine.Yields full m (fun items => (Exit.next, (entryValues items).reverse ++ vs))
        (c.exec s fuel (m.working h vs)) (MapEntry.evalAll s.limits look es h)
  | .selectors e => ∀ h vs, HasRoom s full m (vs.length + e.selectorsHeight) →
      ScriptEngine.Yields full m (fun path => (Exit.next, path.reverse ++ vs))
        (c.exec s fuel (m.working h vs)) (e.evalSelectors s.limits look h)
  | _ => True

/-- The code of every name that is looked up between two stages yields its value. -/
def Stage.Loads (s : Setting) (full : Prop) (m : Machine) (look : String → HeapM Value) (start stop : Stage) :
    Prop :=
  ∀ {σ σ1 : Stage} {name x depth}, Later start σ → σ.resolve name = some (x, depth, σ1) → Later σ1 stop →
    ∀ {fuel pos h vs}, HasRoom s full m (vs.length + 1) →
      Yields full m (fun v => (Exit.next, v :: vs))
        ((Code.load pos (σ1.symbol x)).exec s fuel (m.working h vs)) (look name h)

/-! ### Pieces -/

section Pieces

variable {e e1 e2 : Expr} {a b : Code} {pos : Pos}

theorem Expr.eval_literal {v : Value} (h : e.literal? = some (pos, v)) (l : Limits) : e.eval l look = pure v := by
  cases e with
  | int | float | char | str =>
    cases h
    simp only [eval]
  | _ => cases h

theorem Expr.evalSelectors_end (hselect : ∀ pos target key, e ≠ .select pos target key)
    (hindex : ∀ pos target key, e ≠ .index pos target key) (l : Limits) : e.evalSelectors l look = pure [] := by
  rw [evalSelectors]
  · exact hselect
  · exact hindex

theorem yields_strict {op : BinaryOp} {opcode : Opcode} {operands : List Nat}
    (hop : op.instruction? = some (opcode, operands)) (hfree : m.allocs = -1)
    (ha : Phrase.Yields s fuel full m look a (.expr e1)) (hb : Phrase.Yields s fuel full m look b (.expr e2)) :
    Phrase.Yields s fuel full m look (a.seq (b.seq (.instr pos opcode operands)))
      (.expr (.binary pos e1 op e2)) := by
  intro h vs hroom
  simp only [height] at hroom
  have hlast : HasRoom s full m (vs.length + 1) := hroom.fewer (by omega)
  refine (ha h vs (hroom.fewer (by omega))).seq fun x h1 _ => ?_
  have hb := hb h1 (x :: vs) (hroom.fewer (by simp only [List.length_cons]; omega))
  cases op with
  | arith op =>
    cases hop
    exact hb.seq fun y h2 _ => yields_binary hfree hlast op x y
  | equal | notEqual =>
    cases hop
    refine hb.seq fun y h2 _ => .instr (Conforms.silently (Yields.pop_working y) (.silently (Yields.pop_working x) ?_))
    exact .silently rfl (Yields.pushed hlast _)
  | logicalAnd | logicalOr => cases hop

theorem yields_logical {op : BinaryOp} {branch : Branch} (hop : op.branch? = some branch)
    (ha : Phrase.Yields s fuel full m look a (.expr e1)) (hb : Phrase.Yields s fuel full m look b (.expr e2)) :
    Phrase.Yields s fuel full m look (a.seq (.skip pos branch b)) (.expr (.binary pos e1 op e2)) := by
  intro h vs hroom
  simp only [height] at hroom
  refine (ha h vs (hroom.fewer (by omega))).seq fun x h1 _ => ?_
  have hb := hb h1 vs (hroom.fewer (by omega))
  cases op with
  | logicalAnd =>
    cases hop
    exact Yields.skipAnd hb
  | logicalOr =>
    cases hop
    exact Yields.skipOr hb
  | arith | equal | notEqual => cases hop

theorem yields_unary {op : UnaryOp} {opcode : Opcode} (hop : op.instruction? = some opcode)
    (hfree : m.allocs = -1) (ha : Phrase.Yields s fuel full m look a (.expr e)) :
    Phrase.Yields s fuel full m look (a.seq (.instr pos opcode [])) (.expr (.unary pos op e)) := by
  intro h vs hroom
  have hlast : HasRoom s full m (vs.length + 1) := hroom.fewer (Nat.add_le_add_left e.height_pos _)
  refine (ha h vs hroom).seq fun x h1 _ => ?_
  cases op with
  | negate | complement =>
    cases hop
    exact .instr (Yields.produce hfree hlast (Yields.ofExcept _))
  | logicalNot =>
    cases hop
    exact .instr (Yields.compute hlast (Yields.inspect _))
  | plus => cases hop

end Pieces

/-- The code of an expression yields what the evaluator gives. -/
theorem Lowers.yields {o : CompileOptions} {ctx : Context} {φ : Phrase} {σ σ' start stop : Stage} {c : Code}
    (h : Lowers o ctx φ σ c σ') (hφ : φ.isFirstOrder = true) (hfree : m.allocs = -1)
    (hloads : Stage.Loads s full m look start stop) (hconstants : KeptIn stop.constants s.program.constants)
    (hstart : start.Later σ) (hstop : σ'.Later stop) : φ.Yields s fuel full m look c := by
  -- Constants are numbered where they are added, and the program has those of the last stage.
  have hconst {σ : Stage} {v : Value} (hlater : (σ.addConstant v).Later stop) :
      s.program.constants[σ.constants.size]? = some v := (hlater.constants.trans hconstants).last
  induction h with
  | ident hresolve hfits =>
    intro h vs hroom
    exact hloads hstart hresolve hstop hroom
  | literal hliteral _ =>
    intro h vs hroom
    rw [eval_literal hliteral]
    exact yields_const (hroom.fewer (Nat.add_le_add_left (height_pos _) _)) (hconst hstop)
  | bool =>
    intro h vs hroom
    cases ‹Bool› <;> exact .instr (Yields.pushed hroom _)
  | undefined =>
    intro h vs hroom
    exact .instr (Yields.pushed hroom _)
  | array hitems _ ih =>
    intro h vs hroom
    simp only [height] at hroom
    refine (ih hφ hstart hstop h vs (hroom.fewer (by omega))).seq fun items h' hok => ?_
    rw [← length_evalAll hok]
    exact yields_array hfree (hroom.fewer (by omega)) items
  | map hitems _ ih =>
    intro h vs hroom
    simp only [height] at hroom
    refine (ih hφ hstart hstop h vs (hroom.fewer (by omega))).seq fun items h' hok => ?_
    rw [← MapEntry.length_evalAll hok]
    exact yields_map hfree (hroom.fewer (by omega)) items
  | binary hop hlhs hrhs iha ihb =>
    obtain ⟨ha, hb⟩ := Bool.and_eq_true_iff.1 hφ
    exact yields_strict hop hfree (iha ha hstart ((hrhs.later hb).trans hstop))
      (ihb hb (hstart.trans (hlhs.later ha)) hstop)
  | logical hop hlhs hrhs iha ihb =>
    obtain ⟨ha, hb⟩ := Bool.and_eq_true_iff.1 hφ
    exact yields_logical hop (iha ha hstart ((hrhs.later hb).trans hstop))
      (ihb hb (hstart.trans (hlhs.later ha)) hstop)
  | unary hop _ ih => exact yields_unary hop hfree (ih hφ hstart hstop)
  | plus _ ih =>
    intro h vs hroom
    simp only [eval, bind_pure]
    exact ih hφ hstart hstop h vs hroom
  | index htarget hkey iha ihb =>
    intro h vs hroom
    obtain ⟨ha, hb⟩ := Bool.and_eq_true_iff.1 hφ
    simp only [height] at hroom
    refine (iha ha hstart ((hkey.later hb).trans hstop) h vs (hroom.fewer (by omega))).seq fun v h1 _ => ?_
    refine (ihb hb (hstart.trans (htarget.later ha)) hstop h1 (v :: vs)
      (hroom.fewer (by simp only [List.length_cons]; omega))).seq fun key h2 _ => ?_
    exact yields_index (hroom.fewer (by omega)) v key
  | select htarget _ ih =>
    intro h vs hroom
    simp only [height] at hroom
    have hbefore := (Stage.Later.text _ _).trans hstop
    refine (ih hφ hstart hbefore h vs (hroom.fewer (by omega))).seq fun v h1 _ => ?_
    exact Yields.constThen (hroom.fewer (by simp only [List.length_cons]; omega)) (hconst hstop)
      (yields_index (hroom.fewer (by omega)) v _)
  | slice htarget hlow hhigh iha ihb ihc =>
    intro h vs hroom
    simp only [Phrase.isFirstOrder, isFirstOrder, Bool.and_eq_true] at hφ
    simp only [height] at hroom
    have hsecond := hstart.trans (htarget.later hφ.1.1)
    have hlater := (hhigh.later hφ.2).trans hstop
    refine (iha hφ.1.1 hstart ((hlow.later hφ.1.2).trans hlater) h vs (hroom.fewer (by omega))).seq
      fun v h1 _ => ?_
    refine (ihb hφ.1.2 hsecond hlater h1 (v :: vs)
      (hroom.fewer (by simp only [List.length_cons]; omega))).seq fun low h2 _ => ?_
    refine (ihc hφ.2 (hsecond.trans (hlow.later hφ.1.2)) hstop h2 (low :: v :: vs)
      (hroom.fewer (by simp only [List.length_cons]; omega))).seq fun high h3 _ => ?_
    refine .instr (Conforms.silently (Yields.pop_working high) (.silently (Yields.pop_working low) (.silently (Yields.pop_working v) ?_)))
    exact (Yields.onHeap _).andAlso fun v h' => Yields.counted hfree (hroom.fewer (by omega)) v
  | cond hcond hyes hno iha ihb ihc =>
    intro h vs hroom
    simp only [Phrase.isFirstOrder, isFirstOrder, Bool.and_eq_true] at hφ
    simp only [height] at hroom
    have hsecond := hstart.trans (hcond.later hφ.1.1)
    have hlater := (hno.later hφ.2).trans hstop
    refine (iha hφ.1.1 hstart ((hyes.later hφ.1.2).trans hlater) h vs (hroom.fewer (by omega))).seq
      fun v h1 _ => ?_
    exact Yields.choice (ihb hφ.1.2 hsecond hlater h1 vs (hroom.fewer (by omega)))
      (ihc hφ.2 (hsecond.trans (hyes.later hφ.1.2)) hstop h1 vs (hroom.fewer (by omega)))
  | error _ ih =>
    intro h vs hroom
    refine (ih hφ hstart hstop h vs hroom).seq fun v h1 _ => ?_
    exact .instr (Yields.produce hfree (hroom.fewer (Nat.add_le_add_left (height_pos _) _)) (.inl rfl))
  | immutable _ ih =>
    intro h vs hroom
    refine (ih hφ hstart hstop h vs hroom).seq fun v h1 _ => ?_
    exact .instr (Yields.produce hfree (hroom.fewer (Nat.add_le_add_left (height_pos _) _)) (Yields.onHeap _))
  | paren _ ih =>
    intro h vs hroom
    exact ih hφ hstart hstop h vs hroom
  | exprsNil =>
    intro h vs _
    exact .inl rfl
  | exprsCons hhead htail iha ihb =>
    intro h vs hroom
    obtain ⟨ha, hb⟩ := Bool.and_eq_true_iff.1 hφ
    simp only [heights] at hroom
    refine (iha ha hstart ((htail.later hb).trans hstop) h vs (hroom.fewer (by omega))).seq fun v h1 _ => ?_
    exact (ihb hb (hstart.trans (hhead.later ha)) hstop h1 (v :: vs)
      (hroom.fewer (by simp only [List.length_cons]; omega))).mapped fun items => by simp
  | entriesNil =>
    intro h vs _
    exact .inl rfl
  | entriesCons _ hhead htail iha ihb =>
    intro h vs hroom
    obtain ⟨ha, hb⟩ := Bool.and_eq_true_iff.1 hφ
    simp only [MapEntry.heights] at hroom
    have hkey := fun key => hstart.trans (Stage.Later.text _ key)
    have hlater := (htail.later hb).trans hstop
    refine Yields.constThen (hroom.fewer (by omega)) (hconst ((hhead.later ha).trans hlater)) ?_
    refine (iha ha (hkey _) hlater h (_ :: vs) (hroom.fewer (by simp only [List.length_cons]; omega))).seq
      fun v h2 _ => ?_
    exact (ihb hb ((hkey _).trans (hhead.later ha)) hstop h2 _
      (hroom.fewer (by simp only [List.length_cons]; omega))).mapped fun items => by simp [entryValues]
  | boundNone =>
    intro h vs hroom
    exact .instr (Yields.pushed hroom _)
  | boundSome _ ih =>
    intro h vs hroom
    exact ih hφ hstart hstop h vs hroom
  | selectorsSelect _ hrest ih =>
    intro h vs hroom
    simp only [selectorsHeight] at hroom
    refine Yields.constThen (hroom.fewer (by omega)) (hconst ((hrest.later hφ).trans hstop)) ?_
    exact (ih hφ (hstart.trans (Stage.Later.text _ _)) hstop h (_ :: vs)
      (hroom.fewer (by simp only [List.length_cons]; omega))).mapped fun path => by simp
  | selectorsIndex hkey hrest iha ihb =>
    intro h vs hroom
    obtain ⟨hb, ha⟩ := Bool.and_eq_true_iff.1 hφ
    simp only [selectorsHeight] at hroom
    refine (iha ha hstart ((hrest.later hb).trans hstop) h vs (hroom.fewer (by omega))).seq fun key h1 _ => ?_
    exact (ihb hb (hstart.trans (hkey.later ha)) hstop h1 (key :: vs)
      (hroom.fewer (by simp only [List.length_cons]; omega))).mapped fun path => by simp
  | selectorsEnd hselect hindex =>
    intro h vs _
    rw [evalSelectors_end hselect hindex]
    exact .inl rfl
  | _ => cases hφ

end ScriptEngine
