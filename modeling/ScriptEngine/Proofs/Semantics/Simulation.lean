import ScriptEngine.Proofs.Expression.Correct
import ScriptEngine.Proofs.Semantics.Agreement
import ScriptEngine.Proofs.Semantics.Emission
/-!
# Compiled code does what the interpreter does

An induction over what a compilation produces: the code of every statement of a program without
functions agrees with the interpretation of that statement (`Lowers.agrees`).
-/

namespace ScriptEngine

open Exec Stmt

variable {a b c : Code} {o : CompileOptions} {ctx : Context} {e target : Expr} {slot : Nat} {σ σ' : Stage}

variable {it n : Nat} {φ : Phrase} {pos : Pos} {name : String}

variable {s : Setting} {fuel slots : Nat} {m : Machine} {env : Env}

/-- Code agrees with the interpretation of statements. Code of a condition decides whether what comes
next is run. -/
def Phrase.Agrees (s : Setting) (fuel : Nat) (m : Machine) (slots : Nat) (env : Env) (c : Code) :
    Phrase → Prop
  | .stmt t => ∀ (w : World slots) vs, ScriptEngine.Agrees m (fun e => (e, vs))
      (c.exec s fuel (m.holding w vs)) (t.exec s.limits fuel env w)
  | .optional t => ∀ (w : World slots) vs, ScriptEngine.Agrees m (fun e => (e, vs))
      (c.exec s fuel (m.holding w vs)) (execOptional s.limits fuel env t w)
  | .stmts ts => ∀ (w : World slots) vs, ScriptEngine.Agrees m (fun e => (e, vs))
      (c.exec s fuel (m.holding w vs)) (execAll s.limits fuel env ts w)
  | .block b => ∀ (w : World slots) vs, ScriptEngine.Agrees m (fun e => (e, vs))
      (c.exec s fuel (m.holding w vs)) (b.exec s.limits fuel env w)
  | .condition e => ∀ {vs} {k : Exec Exit} {k' : Eval slots Exit},
      (∀ w, ScriptEngine.Agrees m (fun e => (e, vs)) (k (m.holding w vs)) (k' w)) → ∀ w,
        ScriptEngine.Agrees m (fun e => (e, vs))
          (Exit.andThen (c.exec s fuel) (tested e.isSome k) (m.holding w vs))
          ((do if ← Expr.test s.limits env e then k' else return .next) w)
  | _ => True

/-- A setting has some constants, and there are enough slots. -/
structure Setting.Provides (s : Setting) (slots : Nat) (constants : Array Value) (next : Nat) : Prop where
  constants : KeptIn constants s.program.constants
  slots : next ≤ slots

/-- What is there after a piece of a syntax tree is there before it. -/
theorem Lowers.provides (h : Lowers o ctx φ σ c σ') (hkind : ctx.kind = .main) (hφ : φ.isStructured = true)
    (hsees : σ.Sees env) (hprovides : s.Provides slots σ'.constants (φ.after env).next) :
    s.Provides slots σ.constants env.next where
  constants := h.constants.trans hprovides.constants
  slots := Nat.le_trans ((h.sees hkind hφ hsees).next_le hsees) hprovides.slots

/-! ### Expressions -/

section Expressions

/-- The code of a name of the main program yields the value of its variable. -/
theorem Stage.Sees.loads (hsees : σ.Sees env) (hslots : env.next ≤ slots) (w : World slots) (stop : Stage) :
    Stage.Loads s True (m.withGlobals w) (env.look w.globals) σ stop := by
  intro σ0 σ1 name x depth hlater hresolve _ fuel pos h vs _
  obtain ⟨rfl, place, hstands, hname, hbelow⟩ := (hlater.follows hsees).sees.resolve hresolve
  cases place with
  | slot slot =>
    have hget : Exec.getGlobal slot ((m.withGlobals w).working h vs) =
        .ok (w.globals[slot]?.getD .undefined) ((m.withGlobals w).working h vs) :=
      Agrees.getGlobal (w := ⟨w.globals, h⟩) (Nat.lt_of_lt_of_le hbelow hslots)
    rw [hstands.load_slot]
    simp only [Env.look, hname]
    exact Conforms.instr (Conforms.silently hget (Yields.pushed (fun _ => trivial) _))
  | builtin b =>
    obtain ⟨hstorage, hbuiltin⟩ := Symbol.of_place_builtin hstands.place
    rw [Code.load, hstorage]
    simp only [Env.look, hname]
    exact yields_getBuiltin (fun _ => trivial) hbuiltin

/-- The code of an expression leaves its value on the stack. -/
theorem Lowers.agrees_value (h : Lowers o ctx (.expr e) σ c σ') (he : e.isFirstOrder = true)
    (hfree : m.allocs = -1) (hsees : σ.Sees env) (hprovides : s.Provides slots σ'.constants env.next)
    (w : World slots) (vs : List Value) :
    Agrees m (fun v => (Exit.next, v :: vs)) (c.exec s fuel (m.holding w vs)) (e.value s.limits env w) :=
  Agrees.ofYields (h.yields he (m := m.withGlobals w) hfree (hsees.loads hprovides.slots w σ')
    hprovides.constants (.refl _) (.refl _) w.heap vs fun _ => trivial)

/-- The code of selectors leaves them on the stack. -/
theorem Lowers.agrees_selectors (h : Lowers o ctx (.selectors e) σ c σ') (he : e.isFirstOrder = true)
    (hfree : m.allocs = -1) (hsees : σ.Sees env) (hprovides : s.Provides slots σ'.constants env.next)
    (w : World slots) (vs : List Value) :
    Agrees m (fun path => (Exit.next, path.reverse ++ vs)) (c.exec s fuel (m.holding w vs))
      (e.selectors s.limits env w) :=
  Agrees.ofYields (h.yields he (m := m.withGlobals w) hfree (hsees.loads hprovides.slots w σ')
    hprovides.constants (.refl _) (.refl _) w.heap vs fun _ => trivial)

/-- What is there after an expression is there before it. -/
theorem Lowers.providesBefore (h : Lowers o ctx φ σ c σ')
    (hprovides : s.Provides slots σ'.constants n) : s.Provides slots σ.constants n :=
  ⟨h.constants.trans hprovides.constants, hprovides.slots⟩

end Expressions

/-! ### Statements -/

section Statements

variable {l : Limits} {w w' : World slots}

theorem Eval.bind_eq_ok {α β : Type} {x : Eval slots α} {f : α → Eval slots β} {b : β}
    (h : (x >>= f) w = .ok b w') : ∃ a w1, x w = .ok a w1 ∧ f a w1 = .ok b w' := by
  change EStateM.bind x f w = _ at h
  rw [EStateM.bind] at h
  split at h
  · next a w1 hx => exact ⟨a, w1, hx, h⟩
  · cases h

theorem Expr.length_selectors {path : List Value} (hplace : e.place? = some (name, n))
    (h : e.selectors l env w = .ok path w') : path.length = n := by
  rw [Expr.selectors, Eval.onHeap] at h
  split at h
  · next hok =>
    cases h
    exact Expr.length_evalSelectors hplace hok
  · cases h

theorem Env.slotOf_eq (hplace : target.place? = some (name, n)) (hname : env.places name = some (.slot slot)) :
    env.slotOf target = some slot := by
  simp [Env.slotOf, hplace, hname]

/-- Selectors and the store after them assign. -/
theorem agrees_assign (hplace : target.place? = some (name, n)) (hname : env.places name = some (.slot slot))
    (hslot : slot < slots) (hb : ∀ (w : World slots) vs, Agrees m (fun path => (Exit.next, path.reverse ++ vs))
      (b.exec s fuel (m.holding w vs)) (target.selectors s.limits env w)) (v : Value) (vs : List Value) :
    Agrees m (fun _ : Unit => (Exit.next, vs))
      ((b.seq (Stage.storeGlobal pos slot n)).exec s fuel (m.holding w (v :: vs)))
      (target.assign s.limits env v w) := by
  rw [Expr.assign, Env.slotOf_eq hplace hname]
  refine (hb w (v :: vs)).seq fun path w1 hok => ?_
  obtain rfl := Expr.length_selectors hplace hok
  cases path with
  | nil => exact agrees_setGlobal hslot v
  | cons last path => exact agrees_setSelGlobal hslot v (List.cons_ne_nil last path)

/-- Reading the target, the value and the operator come before selectors and store. -/
theorem agrees_combine {op : Operator} {value : Eval slots Value} (hfree : m.allocs = -1)
    (hplace : target.place? = some (name, n)) (hname : env.places name = some (.slot slot)) (hslot : slot < slots)
    (hc : ∀ (w : World slots) vs, Agrees m (fun v => (Exit.next, v :: vs)) (c.exec s fuel (m.holding w vs))
      (target.value s.limits env w))
    (ha : ∀ w vs, Agrees m (fun v => (Exit.next, v :: vs)) (a.exec s fuel (m.holding w vs)) (value w))
    (hb : ∀ (w : World slots) vs, Agrees m (fun path => (Exit.next, path.reverse ++ vs))
      (b.exec s fuel (m.holding w vs)) (target.selectors s.limits env w)) (vs : List Value) :
    Agrees m (fun _ : Unit => (Exit.next, vs))
      ((c.seq (a.seq ((Code.instr pos .binary [op.code]).seq (b.seq (Stage.storeGlobal pos slot n))))).exec
        s fuel (m.holding w vs))
      (target.combine s.limits env op value w) := by
  refine (hc w vs).seq fun old w1 _ => (ha w1 (old :: vs)).seq fun new w2 _ => ?_
  exact (agrees_binary hfree op old new).seq fun v w3 _ => agrees_assign hplace hname hslot hb v vs

/-- Code of a value and a test of it decide whether a loop goes on. -/
theorem agrees_condition
    (ha : ∀ (w : World slots) vs, Agrees m (fun v => (Exit.next, v :: vs)) (a.exec s fuel (m.holding w vs))
      (e.value s.limits env w)) : Phrase.Agrees s fuel m slots env a (.condition (some e)) := by
  intro vs k k' hk w
  simp only [Expr.test, bind_assoc, pure_bind]
  refine (ha w vs).bind fun v w1 _ => ?_
  have hchoice := (hk w1).proceed (v := v)
  change Agrees m _ _ ((if v.isFalsy w1.heap = true then _ else _ : Eval slots Exit) w1) at hchoice
  show Agrees m _ _ ((if (!v.isFalsy w1.heap) = true then _ else _ : Eval slots Exit) w1)
  cases hfalsy : v.isFalsy w1.heap <;> rw [hfalsy] at hchoice <;> exact hchoice

/-- Moving on the iterator in a variable decides whether a loop over items goes on. -/
theorem agrees_advance {vs : List Value} (hit : it < slots) {k : Exec Exit}
    {k' : Eval slots Exit} (hk : ∀ w, Agrees m (fun e => (e, vs)) (k (m.holding w vs)) (k' w)) (w : World slots) :
    Agrees m (fun e => (e, vs))
      (Exit.andThen (((Code.instr pos .getGlobal [it]).seq (.instr pos .iterNext [])).exec s fuel)
        (tested true k) (m.holding w vs))
      ((do if ← (do let v ← Eval.load it; Eval.onHeap v.advance) then k' else return .next) w) := by
  have hhead : Agrees m (fun b => (Exit.next, Value.bool b :: vs))
      (((Code.instr pos .getGlobal [it]).seq (.instr pos .iterNext [])).exec s fuel (m.holding w vs))
      ((do let v ← Eval.load it; Eval.onHeap v.advance) w) :=
    (agrees_getGlobal hit).seq fun v w1 _ => agrees_iterNext v
  refine hhead.bind fun b w1 _ => ?_
  have hchoice := (hk w1).proceed (v := .bool b)
  cases b <;> exact hchoice

theorem Env.next_le_bindItem (env : Env) (x : Ident) : env.next ≤ (env.bindItem x).next := by
  rw [Env.bindItem]
  split
  · exact Nat.le_succ _
  · exact Nat.le_refl _

theorem agrees_bindItem {x : Ident} {op : Opcode} {item : Heap → Value → Except Fault Value}
    (hit : it < slots) (hnext : (env.bindItem x).next ≤ slots)
    (hop : ∀ v (w : World slots) vs, Agrees m (fun v => (Exit.next, v :: vs))
      ((Code.instr pos op []).exec s fuel (m.holding w (v :: vs))) (Eval.onHeap (HeapM.read fun h => item h v) w))
    (vs : List Value) :
    Agrees m (fun _ : Unit => (Exit.next, vs))
      ((Stage.itemCode pos it op x env.next).exec s fuel (m.holding w vs)) (env.bindItemTo it item x w) := by
  rw [Stage.itemCode, Env.bindItemTo]
  by_cases hname : x.name ≠ "_"
  · rw [if_pos hname, if_pos hname]
    rw [Env.bindItem, if_pos hname] at hnext
    refine (agrees_getGlobal hit).seq fun v w1 _ => (hop v w1 vs).seq fun u w2 _ => ?_
    exact agrees_setGlobal hnext u
  · rw [if_neg hname, if_neg hname]
    exact .inl rfl

theorem agrees_bindItems {key : Ident} {value : Option Ident} (hit : it < slots)
    (hnext : (env.bindItems key value).next ≤ slots) (vs : List Value) :
    Agrees m (fun _ : Unit => (Exit.next, vs))
      ((Stage.itemsCode pos it env key value).exec s fuel (m.holding w vs)) (env.bindItemsTo it key value w) := by
  cases value with
  | none => exact agrees_bindItem hit hnext (fun v w vs => agrees_iterValue v) vs
  | some value =>
    have hkey := Nat.le_trans ((env.bindItem key).next_le_bindItem value) hnext
    refine (agrees_bindItem hit hkey (fun v w vs => agrees_iterKey v) vs).seq fun _ w1 _ => ?_
    exact agrees_bindItem hit hnext (fun v w vs => agrees_iterValue v) vs

mutual

/-- A statement that leaves the block around it never ends normally. -/
theorem Stmt.exec_ne_next (t : Stmt) (hstructured : t.isStructured = true) (hleaves : t.leaves .main = true)
    (env : Env) (w w' : World slots) : t.exec l fuel env w ≠ .ok .next w' := by
  cases t with
  | breakLoop | continueLoop =>
    rw [exec]
    exact fun h => by cases h
  | block pos body =>
    rw [exec]
    exact Block.exec_ne_next body hstructured hleaves env w w'
  | ret | exportValue => simp [isStructured] at hstructured
  | _ => simp [leaves] at hleaves

/-- Statements of which one leaves the block around them never end normally. -/
theorem Stmt.execAll_ne_next (ts : List Stmt) (hstructured : allStructured ts = true)
    (hleaves : anyLeaves .main ts = true) (env : Env) (w w' : World slots) :
    execAll l fuel env ts w ≠ .ok .next w' := by
  cases ts with
  | nil => cases hleaves
  | cons t ts =>
    obtain ⟨ht, hts⟩ := Bool.and_eq_true_iff.1 hstructured
    rw [execAll]
    intro h
    obtain ⟨e, w1, hfirst, h⟩ := Eval.bind_eq_ok h
    cases e with
    | broke | continued => cases h
    | next =>
      rcases Bool.or_eq_true_iff.1 hleaves with hleaves | hleaves
      · exact Stmt.exec_ne_next t ht hleaves env w w1 hfirst
      · exact Stmt.execAll_ne_next ts hts hleaves _ w1 w' h

/-- A block that leaves the block around it never ends normally. -/
theorem Block.exec_ne_next (b : Block) (hstructured : b.isStructured = true) (hleaves : b.leaves .main = true)
    (env : Env) (w w' : World slots) : b.exec l fuel env w ≠ .ok .next w' := by
  cases b with
  | mk pos ts =>
    rw [Block.exec]
    exact Stmt.execAll_ne_next ts hstructured hleaves env w w'

end

end Statements

/-- The code of a statement of the main program does what the interpreter does. -/
theorem Lowers.agrees (h : Lowers o ctx φ σ c σ') (hkind : ctx.kind = .main) (hφ : φ.isStructured = true)
    (hfree : m.allocs = -1) (hsees : σ.Sees env) (hprovides : s.Provides slots σ'.constants (φ.after env).next) :
    φ.Agrees s fuel m slots env c := by
  induction h generalizing env with
  | exprStmt hvalue =>
    intro w vs
    refine (hvalue.agrees_value hφ hfree hsees hprovides w vs).seq fun v w1 _ => ?_
    exact (agrees_pop v).mapped fun _ => rfl
  | define hplace hnew hvalue hfunction hstore =>
    intro w vs
    obtain ⟨-, hv⟩ := Phrase.isStructured_assign.1 hφ
    rw [hsees.lookedUp] at hvalue
    have hfirst := hvalue.follows hv hsees
    obtain ⟨slot, heq, -, rfl, rfl⟩ := (hfirst.sees.stands_define _).store hstore
    cases heq
    simp only [Phrase.after, after, hplace] at hprovides
    have hbefore : s.Provides slots _ env.next :=
      ⟨hprovides.constants, Nat.le_trans (Nat.le_succ _) hprovides.slots⟩
    refine (hvalue.agrees_value hv hfree hsees hbefore w vs).seq fun v w1 _ => ?_
    exact (agrees_setGlobal hprovides.slots v).mapped fun _ => rfl
  | defineFunction hplace hnew hvalue hfunction hstore =>
    obtain ⟨-, hv⟩ := Phrase.isStructured_assign.1 hφ
    exact absurd hv (Expr.not_isFirstOrder_of_isFunction hfunction)
  | assign hplace hresolve hvalue hselectors hstore =>
    intro w vs
    obtain ⟨ht, hv⟩ := Phrase.isStructured_assign.1 hφ
    have ht := Expr.isFirstOrder_of_isShortTarget ht
    obtain ⟨rfl, place, hstands, hname, hbelow⟩ := hsees.resolve hresolve
    have hfirst := hvalue.follows hv hsees
    have hsecond := hselectors.follows ht hfirst.sees
    obtain ⟨slot, rfl, -, rfl, rfl⟩ := (hstands.follows (hfirst.trans hsecond)).store hstore
    have hslot := Nat.lt_of_lt_of_le hbelow hprovides.slots
    refine (hvalue.agrees_value hv hfree hsees (hselectors.providesBefore hprovides) w vs).seq
      fun v w1 _ => ?_
    exact (agrees_assign hplace hname hslot (hselectors.agrees_selectors ht hfree hfirst.sees hprovides) v
      vs).mapped fun _ => rfl
  | combine hplace hresolve hread hvalue hselectors hstore =>
    intro w vs
    obtain ⟨ht, hv⟩ := Phrase.isStructured_assign.1 hφ
    have ht := Expr.isFirstOrder_of_isShortTarget ht
    obtain ⟨rfl, place, hstands, hname, hbelow⟩ := hsees.resolve hresolve
    have hfirst := hread.follows ht hsees
    have hsecond := hvalue.follows hv hfirst.sees
    have hthird := hselectors.follows ht hsecond.sees
    obtain ⟨slot, rfl, -, rfl, rfl⟩ := (hstands.follows (hfirst.trans (hsecond.trans hthird))).store hstore
    have hlater := hselectors.providesBefore hprovides
    refine Conforms.mapped ?_ fun _ => rfl
    exact agrees_combine hfree hplace hname (Nat.lt_of_lt_of_le hbelow hprovides.slots)
      (hread.agrees_value ht hfree hsees (hvalue.providesBefore hlater))
      (hvalue.agrees_value hv hfree hfirst.sees hlater)
      (hselectors.agrees_selectors ht hfree hsecond.sees hprovides) vs
  | incDec hassign ih =>
    intro w vs
    have hsame := ih hkind (Phrase.isStructured_assign.2 ⟨hφ, rfl⟩) hsees hprovides w vs
    exact hsame
  | blockStmt hbody ih =>
    intro w vs
    exact ih hkind hφ hsees hprovides w vs
  | ifThen hinit hcond hbody ihi _ ihb =>
    intro w vs
    simp only [Phrase.isStructured, isStructured, Bool.and_eq_true] at hφ
    have hfirst := hinit.sees hkind hφ.1.1.1 hsees.enter
    have hsecond := hcond.follows hφ.1.1.2 hfirst.sees
    have hlater := hbody.provides hkind hφ.1.2 hsecond.sees hprovides
    refine (ihi hkind hφ.1.1.1 hsees.enter (hcond.providesBefore hlater) w vs).andThen fun w1 => ?_
    refine (hcond.agrees_value hφ.1.1.2 hfree hfirst.sees hlater w1 vs).seq fun v w2 _ => ?_
    exact Agrees.choice (ihb hkind hφ.1.2 hsecond.sees hprovides w2 vs) (.inl rfl)
  | ifElse hinit hcond hbody hother ihi _ ihb iho =>
    intro w vs
    simp only [Phrase.isStructured, isStructured, Bool.and_eq_true] at hφ
    have hfirst := hinit.sees hkind hφ.1.1.1 hsees.enter
    have hsecond := hcond.follows hφ.1.1.2 hfirst.sees
    have hthird := hbody.sees hkind hφ.1.2 hsecond.sees
    have hlater := hother.provides hkind hφ.2 hthird.sees hprovides
    have hinside := hbody.provides hkind hφ.1.2 hsecond.sees hlater
    refine (ihi hkind hφ.1.1.1 hsees.enter (hcond.providesBefore hinside) w vs).andThen fun w1 => ?_
    refine (hcond.agrees_value hφ.1.1.2 hfree hfirst.sees hinside w1 vs).seq fun v w2 _ => ?_
    exact Agrees.choice (ihb hkind hφ.1.2 hsecond.sees hlater w2 vs)
      (iho hkind hφ.2 hthird.sees hprovides w2 vs)
  | loop hinit hcond hbody hpost ihi ihc ihb ihp =>
    intro w vs
    simp only [Phrase.isStructured, isStructured, Bool.and_eq_true] at hφ
    have hfirst := hinit.sees hkind hφ.1.1.1 hsees.enter
    have hsecond := hcond.sees hkind hφ.1.1.2 hfirst.sees
    have hthird := hbody.sees hkind hφ.2 hsecond.sees
    have hlater := hpost.provides hkind hφ.1.2 hthird.sees hprovides
    have hinside := hbody.provides hkind hφ.2 hsecond.sees hlater
    refine (ihi hkind hφ.1.1.1 hsees.enter (hcond.provides hkind hφ.1.1.2 hfirst.sees hinside) w vs).andThen
      fun w1 => ?_
    exact Agrees.rounds (ihc hkind hφ.1.1.2 hfirst.sees hinside)
      (fun w2 => ihb hkind hφ.2 hsecond.sees hlater w2 vs)
      (fun w2 => ihp hkind hφ.1.2 hthird.sees hprovides w2 vs) fuel w1
  | forIn hdefine hiterable hbind hfits hitems hbody _ ihb =>
    intro w vs
    obtain ⟨he, hb⟩ := Bool.and_eq_true_iff.1 hφ
    have hit := hsees.enter.define ":it"
    have hstands := hsees.enter.stands_define ":it"
    rw [hdefine] at hit hstands
    have hfirst := hiterable.follows he hit.sees
    obtain ⟨-, rfl, rfl⟩ := (hstands.follows hfirst).bind hbind
    obtain ⟨hbound, rfl⟩ := hfirst.sees.bindItems (hstands.follows hfirst) hitems
    have hlater := hbody.provides hkind hb hbound.sees hprovides
    have hinside : s.Provides slots _ (env.define ":it").next :=
      ⟨(KeptIn.ofEq (Stage.renames_bindItems hitems).constants).trans hlater.constants,
        Nat.le_trans (hbound.next_le hfirst.sees) hlater.slots⟩
    have hslot : env.next < slots := hinside.slots
    rw [(hstands.follows hfirst).load_slot]
    refine (hiterable.agrees_value he hfree hit.sees hinside w vs).seq fun v w1 _ => ?_
    refine (agrees_iterInit hfree v).seq fun u w2 _ => (agrees_setGlobal hslot u).seq fun _ w3 _ => ?_
    refine Agrees.rounds (agrees_advance hslot) (fun w4 => ?_) (fun w4 => ?_) fuel w3
    · refine (agrees_bindItems hslot hlater.slots vs).seq fun _ w5 _ => ?_
      exact ihb hkind hb hbound.sees hprovides w5 vs
    · exact .inl rfl
  | breakLoop hloop | continueLoop hloop | empty | optionalNone =>
    intro w vs
    exact .inl rfl
  | optionalSome hstmt ih =>
    intro w vs
    exact ih hkind hφ hsees hprovides w vs
  | conditionNone =>
    intro vs k k' hk w
    exact hk w
  | conditionSome hcond => exact agrees_condition (hcond.agrees_value hφ hfree hsees hprovides)
  | stmtsNil =>
    intro w vs
    exact .inl rfl
  | stmtsLast hleaves hstmt ih =>
    intro w vs
    obtain ⟨ht, -⟩ := Bool.and_eq_true_iff.1 hφ
    rw [hkind] at hleaves
    simp only [Phrase.after, afterAll, hleaves, if_true] at hprovides
    exact (ih hkind ht hsees hprovides w vs).thenNothing (exec_ne_next _ ht hleaves env w)
  | stmtsCons hleaves hstmt hrest ihs ihr =>
    intro w vs
    obtain ⟨ht, hr⟩ := Bool.and_eq_true_iff.1 hφ
    rw [hkind] at hleaves
    simp only [Phrase.after, afterAll, hleaves, Bool.false_eq_true, if_false] at hprovides
    have hfirst := hstmt.sees hkind ht hsees
    exact (ihs hkind ht hsees (hrest.provides hkind hr hfirst.sees hprovides) w vs).andThen
      fun w1 => ihr hkind hr hfirst.sees hprovides w1 vs
  | blockNil =>
    intro w vs
    exact .inl rfl
  | block hne hbody ih =>
    intro w vs
    exact ih hkind hφ hsees.enter hprovides w vs
  | _ => cases hφ

end ScriptEngine
