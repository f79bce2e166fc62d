import ScriptEngine.Proofs.Compiler.Balance
/-!
# Where statements are

`Spans` follows a compilation to a statement inside the phrase that is compiled, and says between which
offsets its code is. Main statement: nothing is waiting at these offsets (`Spans.rests`).
-/

namespace ScriptEngine

open Code (jumpLength testLength)

/-- While a phrase becomes code that starts at an offset, a statement in it becomes the code between two
offsets. -/
inductive Spans (o : CompileOptions) (s : Stmt) (first last : Nat) :
    Context → Phrase → Stage → Code → Stage → Nat → Prop where
  | here (hstmt : Lowers o ctx (.stmt s) σ c σ') (hfirst : first = start) (hlast : last = start + c.size) :
    Spans o s first last ctx (.stmt s) σ c σ' start
  | optional (h : Spans o s first last ctx (.stmt t) σ a σ1 start) :
    Spans o s first last ctx (.optional (some t)) σ a σ1 start
  | leaving {t : Stmt} {rest : List Stmt} (hleaves : t.leaves ctx.kind = true)
      (h : Spans o s first last ctx (.stmt t) σ a σ1 start) :
    Spans o s first last ctx (.stmts (t :: rest)) σ a σ1 start
  | head {t : Stmt} {rest : List Stmt} (hleaves : t.leaves ctx.kind = false)
      (h : Spans o s first last ctx (.stmt t) σ a σ1 start) (hrest : Lowers o ctx (.stmts rest) σ1 b σ2) :
    Spans o s first last ctx (.stmts (t :: rest)) σ (a.seq b) σ2 start
  | tail {t : Stmt} {rest : List Stmt} (hleaves : t.leaves ctx.kind = false) (hstmt : Lowers o ctx (.stmt t) σ a σ1)
      (h : Spans o s first last ctx (.stmts rest) σ1 b σ2 (start + a.size)) :
    Spans o s first last ctx (.stmts (t :: rest)) σ (a.seq b) σ2 start
  | block {ss : List Stmt} (h : Spans o s first last ctx (.stmts ss) (σ.enter true) a σ1 start) :
    Spans o s first last ctx (.block (.mk pos ss)) σ a (σ1.returnTo σ.scope) start
  | blockStmt (h : Spans o s first last ctx (.block body) σ a σ1 start) :
    Spans o s first last ctx (.stmt (.block pos body)) σ a σ1 start
  | ifThenInit {init : Option Stmt} (h : Spans o s first last ctx (.optional init) (σ.enter true) a σ1 start)
      (hcond : Lowers o ctx (.expr e) σ1 b σ2) (hbody : Lowers o ctx (.block body) σ2 c σ3) :
    Spans o s first last ctx (.stmt (.ifThen pos init e body none)) σ (a.seq (b.seq (.skip pos .onFalsy c)))
      (σ3.returnTo σ.scope) start
  | ifThenBody {init : Option Stmt} (hinit : Lowers o ctx (.optional init) (σ.enter true) a σ1)
      (hcond : Lowers o ctx (.expr e) σ1 b σ2)
      (h : Spans o s first last ctx (.block body) σ2 c σ3 (start + a.size + b.size + jumpLength)) :
    Spans o s first last ctx (.stmt (.ifThen pos init e body none)) σ (a.seq (b.seq (.skip pos .onFalsy c)))
      (σ3.returnTo σ.scope) start
  | ifElseInit {init : Option Stmt} {other : Stmt}
      (h : Spans o s first last ctx (.optional init) (σ.enter true) a σ1 start)
      (hcond : Lowers o ctx (.expr e) σ1 b σ2) (hbody : Lowers o ctx (.block body) σ2 c σ3)
      (hother : Lowers o ctx (.stmt other) σ3 d σ4) :
    Spans o s first last ctx (.stmt (.ifThen pos init e body (some other))) σ (a.seq (b.seq (.choose pos c d)))
      (σ4.returnTo σ.scope) start
  | ifElseBody {init : Option Stmt} {other : Stmt} (hinit : Lowers o ctx (.optional init) (σ.enter true) a σ1)
      (hcond : Lowers o ctx (.expr e) σ1 b σ2)
      (h : Spans o s first last ctx (.block body) σ2 c σ3 (start + a.size + b.size + jumpLength))
      (hother : Lowers o ctx (.stmt other) σ3 d σ4) :
    Spans o s first last ctx (.stmt (.ifThen pos init e body (some other))) σ (a.seq (b.seq (.choose pos c d)))
      (σ4.returnTo σ.scope) start
  | ifElseOther {init : Option Stmt} {other : Stmt} (hinit : Lowers o ctx (.optional init) (σ.enter true) a σ1)
      (hcond : Lowers o ctx (.expr e) σ1 b σ2) (hbody : Lowers o ctx (.block body) σ2 c σ3)
      (h : Spans o s first last ctx (.stmt other) σ3 d σ4
        (start + a.size + b.size + jumpLength + c.size + jumpLength)) :
    Spans o s first last ctx (.stmt (.ifThen pos init e body (some other))) σ (a.seq (b.seq (.choose pos c d)))
      (σ4.returnTo σ.scope) start
  | loopInit {init post : Option Stmt} {condition : Option Expr}
      (h : Spans o s first last ctx (.optional init) (σ.enter true) a σ1 start)
      (hcond : Lowers o ctx (.condition condition) σ1 b σ2)
      (hbody : Lowers o { ctx with inLoop := true } (.block body) σ2 c σ3)
      (hpost : Lowers o ctx (.optional post) σ3 d σ4) :
    Spans o s first last ctx (.stmt (.loop pos init condition post body)) σ
      (a.seq (.loop pos b condition.isSome c d)) (σ4.returnTo σ.scope) start
  | loopBody {init post : Option Stmt} {condition : Option Expr}
      (hinit : Lowers o ctx (.optional init) (σ.enter true) a σ1)
      (hcond : Lowers o ctx (.condition condition) σ1 b σ2)
      (h : Spans o s first last { ctx with inLoop := true } (.block body) σ2 c σ3
        (start + a.size + b.size + testLength condition.isSome))
      (hpost : Lowers o ctx (.optional post) σ3 d σ4) :
    Spans o s first last ctx (.stmt (.loop pos init condition post body)) σ
      (a.seq (.loop pos b condition.isSome c d)) (σ4.returnTo σ.scope) start
  | loopPost {init post : Option Stmt} {condition : Option Expr}
      (hinit : Lowers o ctx (.optional init) (σ.enter true) a σ1)
      (hcond : Lowers o ctx (.condition condition) σ1 b σ2)
      (hbody : Lowers o { ctx with inLoop := true } (.block body) σ2 c σ3)
      (h : Spans o s first last ctx (.optional post) σ3 d σ4
        (start + a.size + b.size + testLength condition.isSome + c.size)) :
    Spans o s first last ctx (.stmt (.loop pos init condition post body)) σ
      (a.seq (.loop pos b condition.isSome c d)) (σ4.returnTo σ.scope) start
  | forInBody {key : Ident} {value : Option Ident}
      (hdefine : (σ.enter true).define ":it" = (x, σ1)) (hiterable : Lowers o ctx (.expr e) σ1 a σ2)
      (hbind : σ2.bind pos x = some (b, σ3)) (hfits : (σ3.symbol x).Fits)
      (hitems : σ3.bindItems pos x key value = some (c, σ4))
      (h : Spans o s first last { ctx with inLoop := true } (.block body) σ4 d σ5
        (start + a.size + (Code.instr pos .iterInit []).size + b.size +
          ((Code.load pos (σ3.symbol x)).seq (.instr pos .iterNext [])).size + testLength true + c.size)) :
    Spans o s first last ctx (.stmt (.forIn pos key value e body)) σ
      (a.seq ((Code.instr pos .iterInit []).seq (b.seq (.loop pos
        ((Code.load pos (σ3.symbol x)).seq (.instr pos .iterNext [])) true (c.seq d) .nop))))
      (σ5.returnTo σ.scope) start

/-! ### Offsets where nothing is waiting -/

namespace Code

/-- At an offset nothing is waiting: control gets to an instruction there, or the code ends. -/
def Rests (c : Code) (inLoop : Bool) (start stop next : Nat) (h : Height) (offset : Nat) : Prop :=
  c.Leads inLoop start stop next h offset .ground ∨ (offset = start + c.size ∧ c.after h = .ground)

section Rests

variable {a b body yes no head post : Code} {inLoop tests : Bool} {start stop next offset : Nat} {h : Height} {pos : Pos}

theorem Rests.left (ha : a.Rests inLoop start stop next h offset) (hb : b.Balanced inLoop (a.after h)) :
    (a.seq b).Rests inLoop start stop next h offset := by
  have hthen : (a.seq b).Leads inLoop start stop next h (start + a.size) (a.after h) := hb.enter.right
  rcases ha with ha | ⟨rfl, hafter⟩
  · exact .inl (ha.left hthen)
  · rw [hafter] at hthen
    exact .inl hthen

theorem Rests.right (hb : b.Rests inLoop (start + a.size) stop next (a.after h) offset) :
    (a.seq b).Rests inLoop start stop next h offset := by
  rcases hb with hb | ⟨rfl, hafter⟩
  · exact .inl hb.right
  · exact .inr ⟨Nat.add_assoc .., hafter⟩

theorem Rests.skipped {branch : Branch} (hb : body.Rests inLoop (start + jumpLength) stop next h.pop offset)
    (hafter : body.after h.pop = (skip pos branch body).after h) :
    (skip pos branch body).Rests inLoop start stop next h offset := by
  rcases hb with hb | ⟨rfl, hground⟩
  · exact .inl (hb.skipped hafter)
  · exact .inr ⟨Nat.add_assoc .., hafter ▸ hground⟩

theorem Rests.chosen (hy : yes.Rests inLoop (start + jumpLength) stop next h.pop offset) :
    (choose pos yes no).Rests inLoop start stop next h offset := by
  rcases hy with hy | ⟨rfl, hground⟩
  · exact .inl hy.chosen
  · exact .inl (hground ▸ leads_over)

theorem Rests.other (hn : no.Rests inLoop (start + jumpLength + yes.size + jumpLength) stop next h.pop offset)
    (hafter : no.after h.pop = yes.after h.pop) : (choose pos yes no).Rests inLoop start stop next h offset := by
  rcases hn with hn | ⟨rfl, hground⟩
  · exact .inl (hn.other hafter)
  · rw [hafter] at hground
    exact .inl (hground ▸ leads_chosen)

theorem Rests.round (hb : body.Rests true (start + head.size + testLength tests)
      (start + head.size + testLength tests + body.size + post.size + jumpLength)
      (start + head.size + testLength tests + body.size) .ground offset)
    (hloop : (loop pos head tests body post).Balanced inLoop .ground) :
    (loop pos head tests body post).Rests inLoop start stop next .ground offset := by
  obtain ⟨-, -, ⟨-, hround⟩, hpost, hbetween⟩ := hloop
  have hagain : (loop pos head tests body post).Leads inLoop start stop next .ground
      (start + head.size + testLength tests + body.size) .ground := hpost.enter.between hbetween
  rcases hb with hb | ⟨rfl, -⟩
  · exact .inl (hb.round rfl hround hagain)
  · exact .inl hagain

theorem Rests.between (hp : post.Rests inLoop (start + head.size + testLength tests + body.size) stop next .ground offset)
    (hloop : (loop pos head tests body post).Balanced inLoop .ground) :
    (loop pos head tests body post).Rests inLoop start stop next .ground offset := by
  obtain ⟨-, -, -, -, hbetween⟩ := hloop
  rcases hp with hp | ⟨rfl, -⟩
  · exact .inl (hp.between hbetween)
  · exact .inl leads_back

end Rests

end Code

/-! ### The main statement -/

section Spans

variable {o : CompileOptions} {s : Stmt} {first last : Nat} {ctx : Context} {φ : Phrase} {σ σ' : Stage} {c : Code}
  {start : Nat}

/-- The phrase around the statement is compiled. -/
theorem Spans.lowers (h : Spans o s first last ctx φ σ c σ' start) : Lowers o ctx φ σ c σ' := by
  induction h with
  | here hstmt _ _ => exact hstmt
  | optional _ ih => exact .optionalSome ih
  | leaving hleaves _ ih => exact .stmtsLast hleaves ih
  | head hleaves _ hrest ih => exact .stmtsCons hleaves ih hrest
  | tail hleaves hstmt _ ih => exact .stmtsCons hleaves hstmt ih
  | block h ih =>
    refine .block ?_ ih
    rintro rfl
    cases h
  | blockStmt _ ih => exact .blockStmt ih
  | ifThenInit _ hcond hbody ih => exact .ifThen ih hcond hbody
  | ifThenBody hinit hcond _ ih => exact .ifThen hinit hcond ih
  | ifElseInit _ hcond hbody hother ih => exact .ifElse ih hcond hbody hother
  | ifElseBody hinit hcond _ hother ih => exact .ifElse hinit hcond ih hother
  | ifElseOther hinit hcond hbody _ ih => exact .ifElse hinit hcond hbody ih
  | loopInit _ hcond hbody hpost ih => exact .loop ih hcond hbody hpost
  | loopBody hinit hcond _ hpost ih => exact .loop hinit hcond ih hpost
  | loopPost hinit hcond hbody _ ih => exact .loop hinit hcond hbody ih
  | forInBody hdefine hiterable hbind hfits hitems _ ih => exact .forIn hdefine hiterable hbind hfits hitems ih

/-- Code after the code of a phrase finds what the phrase has put on the stack. -/
theorem Lowers.rests_then {b : Code} {offset stop next : Nat} (h : Lowers o ctx φ σ c σ') (hσ : σ.Housed)
    (hbalanced : (c.seq b).Balanced ctx.inLoop .ground)
    (hrest : σ'.Housed → b.Balanced ctx.inLoop ⟨φ.gives, 0⟩ →
      b.Rests ctx.inLoop (start + c.size) stop next ⟨φ.gives, 0⟩ offset) :
    (c.seq b).Rests ctx.inLoop start stop next .ground offset := by
  have hafter : c.after .ground = ⟨0 + φ.gives, 0⟩ := (h.balanced hσ 0 fun _ => rfl).2
  rw [Nat.zero_add] at hafter
  have hb := hbalanced.2
  rw [hafter] at hb
  refine Code.Rests.right ?_
  rw [hafter]
  exact hrest (h.housed hσ) hb

/-- Nothing is waiting where a statement starts and where it ends. -/
theorem Spans.rests (h : Spans o s first last ctx φ σ c σ' start) (hσ : σ.Housed)
    {offset : Nat} (hoffset : offset = first ∨ offset = last) (stop next : Nat) :
    c.Rests ctx.inLoop start stop next .ground offset := by
  have hbalanced : c.Balanced ctx.inLoop .ground := (h.lowers.balanced hσ 0 fun _ => rfl).1
  induction h generalizing stop next with
  | here hstmt hfirst hlast =>
    rcases hoffset with rfl | rfl
    · rw [hfirst]
      exact .inl hbalanced.enter
    · exact .inr ⟨hlast, (hstmt.balanced hσ 0 fun _ => rfl).2⟩
  | optional _ ih | leaving _ _ ih | blockStmt _ ih => exact ih hσ stop next hbalanced
  | block _ ih => exact ih (hσ.enter true) stop next hbalanced
  | head hleaves h hrest ih => exact (ih hσ stop next hbalanced.1).left hbalanced.2
  | tail hleaves hstmt _ ih => exact hstmt.rests_then hσ hbalanced fun hσ1 hrest => ih hσ1 stop next hrest
  | ifThenInit _ _ _ ih | ifElseInit _ _ _ _ ih | loopInit _ _ _ _ ih =>
    exact (ih (hσ.enter true) stop next hbalanced.1).left hbalanced.2
  | ifThenBody hinit hcond h ih =>
    refine hinit.rests_then (hσ.enter true) hbalanced fun hfirst hrest => ?_
    exact hcond.rests_then hfirst hrest fun hsecond hskip => .skipped (ih hsecond stop next hskip.2.1) hskip.2.2
  | ifElseBody hinit hcond h hother ih =>
    refine hinit.rests_then (hσ.enter true) hbalanced fun hfirst hrest => ?_
    exact hcond.rests_then hfirst hrest fun hsecond hchoose => .chosen (ih hsecond stop next hchoose.2.1)
  | ifElseOther hinit hcond hbody h ih =>
    refine hinit.rests_then (hσ.enter true) hbalanced fun hfirst hrest => ?_
    exact hcond.rests_then hfirst hrest fun hsecond hchoose =>
      .other (ih (hbody.housed hsecond) stop next hchoose.2.2.1) hchoose.2.2.2
  | loopBody hinit hcond h hpost ih =>
    exact hinit.rests_then (hσ.enter true) hbalanced fun hfirst hloop =>
      .round (ih (hcond.housed hfirst) _ _ hloop.2.2.1.1) hloop
  | loopPost hinit hcond hbody h ih =>
    refine hinit.rests_then (hσ.enter true) hbalanced fun hfirst hloop => ?_
    have hsecond := hcond.housed hfirst
    exact .between (ih (hbody.housed hsecond) stop next hloop.2.2.2.1) hloop
  | forInBody hdefine hiterable hbind hfits hitems h ih =>
    rename_i x σ1 ctx e a σ2 pos b σ3 c σ4 body d σ5 start σ key value
    cases hdefine
    have hinner := (hσ.enter true).renames (Stage.renames_define _ ":it")
    have hnamed := (Stage.renames_bind hbind).trans (Stage.renames_bindItems hitems)
    -- The iterator is stored before the loop, and the names are bound before the body.
    have hstore : b.Lifts ctx.inLoop Height.ground.push .ground := Stage.lifts_bind hbind
    have hbound : c.Lifts true .ground .ground := Stage.lifts_bindItems hitems
    have hstored : b.after ((Code.instr pos .iterInit []).after (a.after .ground)) = .ground := by
      have hvalue : a.after .ground = Height.ground.push := (hiterable.balanced hinner 0 fun _ => rfl).2
      rw [hvalue]
      exact hstore.2
    have hloop := hbalanced.2.2.2
    rw [hstored] at hloop
    have hbody := hloop.2.2.1.1.2
    rw [hbound.2] at hbody
    refine Code.Rests.right (Code.Rests.right (Code.Rests.right ?_))
    rw [hstored]
    refine Code.Rests.round (Code.Rests.right ?_) hloop
    rw [hbound.2]
    exact ih ((hiterable.housed hinner).renames hnamed) _ _ hbody

end Spans

end ScriptEngine
