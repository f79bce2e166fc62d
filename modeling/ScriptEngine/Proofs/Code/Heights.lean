import ScriptEngine.Proofs.Code.Reading
/-!
# Heights of the stack

While a function runs, values wait on the stack above its variables, and captured cells wait for the
function that is made of them. How many there are is known at every instruction of structured code, and
`Code.heights` computes it. Main statement: from an instruction control goes only to instructions that
expect what is waiting then, unless it leaves the code (`Code.Balanced.flows`).
-/

namespace ScriptEngine

variable {body c : Code} {next o offset start stop : Nat} {pos : Pos} {k : Height} {l : Line}

/-- How many values and how many captured cells are waiting. -/
@[ext]
structure Height where
  values : Nat
  cells : Nat
  deriving Repr, DecidableEq, Inhabited

namespace Opcode

/-- How many values an instruction takes off the stack. -/
def takes : Opcode → List Nat → Nat
  | .pop, _ | .negate, _ | .logicalNot, _ | .complement, _ | .jumpFalsy, _ | .andJump, _ | .orJump, _
  | .error, _ | .freeze, _ | .setGlobal, _ | .setLocal, _ | .defineLocal, _ | .setFree, _ | .iterInit, _
  | .iterNext, _ | .iterKey, _ | .iterValue, _ => 1
  | .equal, _ | .notEqual, _ | .binary, _ | .index, _ => 2
  | .slice, _ => 3
  | .array, operands | .map, operands | .ret, operands => operands.headD 0
  | .call, operands => operands.headD 0 + 1
  | .setSelGlobal, operands | .setSelLocal, operands | .setSelFree, operands => operands.tail.headD 0 + 1
  | _, _ => 0

/-- How many values an instruction puts on the stack. -/
def gives : Opcode → Nat
  | .pop | .jumpFalsy | .andJump | .orJump | .jump | .ret | .setGlobal | .setSelGlobal | .setLocal
  | .defineLocal | .setSelLocal | .setFree | .captureFree | .captureLocal | .setSelFree | .suspend => 0
  | _ => 1

/-- How many captured cells an instruction takes. -/
def takesCells : Opcode → List Nat → Nat
  | .closure, operands => operands.tail.headD 0
  | _, _ => 0

/-- How many cells an instruction captures. -/
def givesCells : Opcode → Nat
  | .captureFree | .captureLocal => 1
  | _ => 0

/-- Whether control never goes on after an instruction. -/
def isLast : Opcode → Bool
  | .ret | .suspend => true
  | _ => false

end Opcode

namespace Height

/-- Nothing is waiting. -/
def ground : Height := ⟨0, 0⟩

/-- One more value. -/
def push (h : Height) : Height := ⟨h.values + 1, h.cells⟩

/-- One value less. -/
def pop (h : Height) : Height := ⟨h.values - 1, h.cells⟩

/-- There is as much as an instruction takes, and no captured cell waits during a call. -/
def Suffices (h : Height) (op : Opcode) (operands : List Nat) : Prop :=
  op.takes operands ≤ h.values ∧ op.takesCells operands ≤ h.cells ∧ (op = .call → h.cells = 0)

/-- What is waiting after an instruction that is not a jump. -/
def after (h : Height) (op : Opcode) (operands : List Nat) : Height :=
  ⟨h.values - op.takes operands + op.gives, h.cells - op.takesCells operands + op.givesCells⟩

@[simp]
theorem pop_push (h : Height) : h.push.pop = h := rfl

end Height

/-- Where control goes from an instruction, and what is waiting there. -/
def Line.flows (l : Line) (h : Height) : List (Nat × Height) :=
  match l.op with
  | .jump => [(l.operands.headD 0, h)]
  | .jumpFalsy => [(l.operands.headD 0, h.pop), (l.offset + l.op.length, h.pop)]
  | .andJump | .orJump => [(l.operands.headD 0, h), (l.offset + l.op.length, h.pop)]
  | .ret | .suspend => []
  | op => [(l.offset + l.op.length, h.after op l.operands)]

namespace Code

/-- What is waiting when control gets to the end of the code. -/
@[simp]
def after : Code → Height → Height
  | nop, h | loop .., h | leave .., h => h
  | instr _ op operands, h => h.after op operands
  | seq a b, h => b.after (a.after h)
  | skip _ .onFalsy _, h => h.pop
  | skip _ .logicalAnd _, h | skip _ .logicalOr _, h => h
  | choose _ yes _, h => yes.after h.pop

/-- Whether control may get to the end of the code. -/
@[simp]
def falls : Code → Bool
  | nop | skip .. | choose .. | loop .. => true
  | instr _ op _ => !op.isLast
  | seq _ b => b.falls
  | leave .. => false

/-- What is waiting at every instruction of the code. -/
@[simp]
def heights : Code → Height → List Height
  | nop, _ => []
  | instr .., h | leave .., h => [h]
  | seq a b, h => a.heights h ++ b.heights (a.after h)
  | skip _ _ body, h => h :: body.heights h.pop
  | choose _ yes no, h => h :: (yes.heights h.pop ++ yes.after h.pop :: no.heights h.pop)
  | loop _ head tests body post, h =>
    head.heights h ++ ((if tests then [head.after h] else []) ++ (body.heights h ++ (post.heights h ++ [h])))

/-- Every instruction finds what it takes, and where paths of control meet, the same is waiting on
both. A loop starts with nothing waiting, and so does what leaves it. -/
@[simp]
def Balanced (inLoop : Bool) : Code → Height → Prop
  | nop, _ => True
  | instr _ op operands, h => op.isJump = false ∧ h.Suffices op operands
  | seq a b, h => a.Balanced inLoop h ∧ b.Balanced inLoop (a.after h)
  | skip pos branch body, h =>
    0 < h.values ∧ body.Balanced inLoop h.pop ∧ body.after h.pop = (skip pos branch body).after h
  | choose _ yes no, h =>
    0 < h.values ∧ yes.Balanced inLoop h.pop ∧ no.Balanced inLoop h.pop ∧ no.after h.pop = yes.after h.pop
  | loop _ head tests body post, h =>
    h = .ground ∧ (head.Balanced inLoop h ∧ head.after h = ⟨tests.toNat, 0⟩) ∧
      (body.Balanced true h ∧ body.after h = h) ∧ post.Balanced inLoop h ∧ post.after h = h
  | leave _ _, h => inLoop = true ∧ h = .ground

/-- The instructions of code with what is waiting at each. -/
def marks (c : Code) (start stop next : Nat) (h : Height) : List (Line × Height) :=
  (c.lines start stop next).zip (c.heights h)

section Marks

variable {h : Height}

theorem length_heights (c : Code) (start stop next : Nat) (h : Height) :
    (c.heights h).length = (c.lines start stop next).length := by
  induction c generalizing start stop next h with
  | nop | instr | leave => rfl
  | seq a b iha ihb => simp [iha start stop next, ihb (start + a.size) stop next]
  | skip pos branch body ih => simp [ih (start + jumpLength) stop next]
  | choose pos yes no ihy ihn =>
    simp [ihy (start + jumpLength) stop next, ihn (start + jumpLength + yes.size + jumpLength) stop next]
  | loop pos head tests body post ihh ihb ihp =>
    let inside := start + head.size + testLength tests
    let again := inside + body.size
    cases tests <;>
      simp [testLines, ihh start stop next, ihb inside (again + post.size + jumpLength) again, ihp again stop next,
        inside, again]

theorem marks_seq (a b : Code) : (seq a b).marks start stop next h =
    a.marks start stop next h ++ b.marks (start + a.size) stop next (a.after h) := by
  rw [marks, lines, heights, List.zip_append (length_heights a ..).symm]
  rfl

theorem marks_choose (pos : Pos) (yes no : Code) : (choose pos yes no).marks start stop next h =
    (⟨pos, start, .jumpFalsy, [start + jumpLength + yes.size + jumpLength]⟩, h) ::
      (yes.marks (start + jumpLength) stop next h.pop ++
        (⟨pos, start + jumpLength + yes.size, .jump,
            [start + jumpLength + yes.size + jumpLength + no.size]⟩, yes.after h.pop) ::
          no.marks (start + jumpLength + yes.size + jumpLength) stop next h.pop) := by
  simp only [marks, lines, heights, List.zip_cons_cons, List.zip_append (length_heights yes ..).symm]

theorem marks_loop (pos : Pos) (head : Code) (tests : Bool) (body post : Code) :
    (loop pos head tests body post).marks start stop next h =
      let test := start + head.size
      let inside := test + testLength tests
      let again := inside + body.size
      let last := again + post.size
      let out := last + jumpLength
      head.marks start stop next h ++ ((testLines pos test out tests).map (·, head.after h) ++
        (body.marks inside out again h ++ (post.marks again stop next h ++ [(⟨pos, last, .jump, [start]⟩, h)]))) := by
  have htest : ∀ out, (testLines pos (start + head.size) out tests).length =
      (if tests then [head.after h] else []).length := by
    intro out
    cases tests <;> rfl
  simp only [marks, lines, heights, List.zip_append (length_heights _ _ _ _ _).symm, List.zip_append (htest _),
    List.zip_cons_cons, List.zip_nil_right]
  cases tests <;> rfl

end Marks

/-- What may come next while the code runs: one of its instructions, its end, or a jump out of the
loop around it. -/
inductive Leads (c : Code) (inLoop : Bool) (start stop next : Nat) (h : Height) : Nat → Height → Prop where
  | mark {l : Line} {k : Height} (hmem : (l, k) ∈ c.marks start stop next h) :
    Leads c inLoop start stop next h l.offset k
  | last (hfalls : c.falls = true) : Leads c inLoop start stop next h (start + c.size) (c.after h)
  | stop (hloop : inLoop = true) : Leads c inLoop start stop next h stop .ground
  | next (hloop : inLoop = true) : Leads c inLoop start stop next h next .ground

section Leads

variable {d : Code} {inLoop : Bool} {h : Height}

/-- What comes next in a part of the code comes next in the whole. -/
theorem Leads.within {inLoop' : Bool} {start' stop' next' : Nat} {h' : Height}
    (hc : c.Leads inLoop start stop next h o k)
    (hmarks : ∀ x ∈ c.marks start stop next h, x ∈ d.marks start' stop' next' h')
    (hlast : c.falls = true → d.Leads inLoop' start' stop' next' h' (start + c.size) (c.after h))
    (hstop : inLoop = true → d.Leads inLoop' start' stop' next' h' stop .ground)
    (hnext : inLoop = true → d.Leads inLoop' start' stop' next' h' next .ground) :
    d.Leads inLoop' start' stop' next' h' o k := by
  cases hc with
  | mark hmem => exact .mark (hmarks _ hmem)
  | last hfalls => exact hlast hfalls
  | stop hloop => exact hstop hloop
  | next hloop => exact hnext hloop

/-- The first part of a sequence. -/
theorem Leads.left (hc : c.Leads inLoop start stop next h o k)
    (hlast : (c.seq d).Leads inLoop start stop next h (start + c.size) (c.after h)) :
    (c.seq d).Leads inLoop start stop next h o k := by
  refine hc.within (fun x hx => ?_) (fun _ => hlast) .stop .next
  rw [marks_seq]
  exact List.mem_append_left _ hx

/-- The second part of a sequence. -/
theorem Leads.right (hd : d.Leads inLoop (start + c.size) stop next (c.after h) o k) :
    (c.seq d).Leads inLoop start stop next h o k := by
  refine hd.within (fun x hx => ?_) (fun hfalls => ?_) .stop .next
  · rw [marks_seq]
    exact List.mem_append_right _ hx
  · rw [Nat.add_assoc]
    exact .last hfalls

section Branches

variable {branch : Branch} {yes no : Code} {k : Height}

/-- What may be skipped. -/
theorem Leads.skipped (hb : body.Leads inLoop (start + jumpLength) stop next h.pop o k)
    (hafter : body.after h.pop = (skip pos branch body).after h) :
    (skip pos branch body).Leads inLoop start stop next h o k := by
  refine hb.within (fun x hx => List.mem_cons_of_mem _ hx) (fun _ => ?_) .stop .next
  rw [hafter, Nat.add_assoc]
  exact .last rfl

/-- The end of a choice. -/
theorem leads_chosen : (choose pos yes no).Leads inLoop start stop next h
    (start + jumpLength + yes.size + jumpLength + no.size) (yes.after h.pop) := by
  have hlast : (choose pos yes no).Leads inLoop start stop next h _ _ := .last rfl
  simpa [← Nat.add_assoc] using hlast

/-- The jump over what is done otherwise. -/
theorem leads_over : (choose pos yes no).Leads inLoop start stop next h (start + jumpLength + yes.size)
    (yes.after h.pop) := by
  refine .mark (l := ⟨pos, _, .jump, [start + jumpLength + yes.size + jumpLength + no.size]⟩) ?_
  rw [marks_choose]
  simp

/-- What is done if the value is truthy. -/
theorem Leads.chosen (hy : yes.Leads inLoop (start + jumpLength) stop next h.pop o k) :
    (choose pos yes no).Leads inLoop start stop next h o k := by
  refine hy.within (fun x hx => ?_) (fun _ => leads_over) .stop .next
  rw [marks_choose]
  simp [hx]

/-- What is done otherwise. -/
theorem Leads.other (hn : no.Leads inLoop (start + jumpLength + yes.size + jumpLength) stop next h.pop o k)
    (hafter : no.after h.pop = yes.after h.pop) : (choose pos yes no).Leads inLoop start stop next h o k := by
  refine hn.within (fun x hx => ?_) (fun _ => ?_) .stop .next
  · rw [marks_choose]
    simp [hx]
  · rw [hafter]
    exact leads_chosen

end Branches

section Loop

variable {head post : Code} {tests : Bool} {k : Height}

/-- The jump back at the end of a round. -/
theorem leads_back : (loop pos head tests body post).Leads inLoop start stop next h
    (start + head.size + testLength tests + body.size + post.size) h := by
  refine Leads.mark (l := ⟨pos, _, .jump, [start]⟩) ?_
  rw [marks_loop]
  simp

/-- What is done between the rounds. -/
theorem Leads.between (hp : post.Leads inLoop (start + head.size + testLength tests + body.size) stop next h o k)
    (hpost : post.after h = h) : (loop pos head tests body post).Leads inLoop start stop next h o k := by
  refine hp.within (fun x hx => ?_) (fun _ => ?_) .stop .next
  · rw [marks_loop]
    simp [hx]
  · rw [hpost]
    exact leads_back

/-- The body of a loop: what leaves it goes to the end of the loop, and the next round starts with what
is done between the rounds. -/
theorem Leads.round (hb : body.Leads true (start + head.size + testLength tests)
      (start + head.size + testLength tests + body.size + post.size + jumpLength)
      (start + head.size + testLength tests + body.size) h o k) (hground : h = .ground) (hbody : body.after h = h)
    (hagain : (loop pos head tests body post).Leads inLoop start stop next h
      (start + head.size + testLength tests + body.size) h) :
    (loop pos head tests body post).Leads inLoop start stop next h o k := by
  have hend : (loop pos head tests body post).Leads inLoop start stop next h _ _ := .last rfl
  simp only [size, after, ← Nat.add_assoc] at hend
  refine hb.within (fun x hx => ?_) (fun _ => ?_) (fun _ => ?_) (fun _ => ?_)
  · rw [marks_loop]
    simp [hx]
  · rw [hbody]
    exact hagain
  · rw [hground] at hend ⊢
    exact hend
  · rw [hground] at hagain ⊢
    exact hagain

/-- The head of a loop. -/
theorem Leads.ahead (hh : head.Leads inLoop start stop next h o k)
    (htest : (loop pos head tests body post).Leads inLoop start stop next h (start + head.size) (head.after h)) :
    (loop pos head tests body post).Leads inLoop start stop next h o k := by
  refine hh.within (fun x hx => ?_) (fun _ => htest) .stop .next
  rw [marks_loop]
  exact List.mem_append_left _ hx

/-- The test that follows the head, or else the body. -/
theorem leads_test (hground : h = .ground) (hafter : head.after h = ⟨tests.toNat, 0⟩)
    (hinside : (loop pos head tests body post).Leads inLoop start stop next h
      (start + head.size + testLength tests) h) :
    (loop pos head tests body post).Leads inLoop start stop next h (start + head.size) (head.after h) := by
  cases tests with
  | true =>
    refine Leads.mark (l := ⟨pos, start + head.size, .jumpFalsy,
      [start + head.size + testLength true + body.size + post.size + jumpLength]⟩) ?_
    rw [marks_loop]
    exact List.mem_append_right _ (List.mem_append_left _ (List.mem_singleton.2 rfl))
  | false =>
    rw [hafter]
    rw [hground] at hinside ⊢
    exact hinside

end Loop

/-- Control gets to the start of the code. -/
theorem Balanced.enter (hc : c.Balanced inLoop h) : c.Leads inLoop start stop next h start h := by
  induction c generalizing inLoop start stop next h with
  | nop => exact .last (c := nop) rfl
  | instr pos op operands => exact .mark (l := ⟨pos, start, op, operands⟩) (List.mem_singleton.2 rfl)
  | seq a b iha ihb => exact (iha hc.1).left (ihb hc.2).right
  | skip pos branch body ih =>
    exact .mark (l := ⟨pos, start, branch.op, [start + jumpLength + body.size]⟩) (List.mem_cons_self ..)
  | choose pos yes no ihy ihn =>
    exact .mark (l := ⟨pos, start, .jumpFalsy, [start + jumpLength + yes.size + jumpLength]⟩)
      (List.mem_cons_self ..)
  | loop pos head tests body post ihh ihb ihp =>
    obtain ⟨hground, ⟨hhead, hafter⟩, ⟨hbody, hround⟩, hpost, hbetween⟩ := hc
    have hagain : (loop pos head tests body post).Leads inLoop start stop next h _ h :=
      (ihp hpost).between hbetween
    have hinside : (loop pos head tests body post).Leads inLoop start stop next h _ h :=
      (ihb hbody).round hground hround hagain
    exact (ihh hhead).ahead (leads_test hground hafter hinside)
  | leave pos isBreak => exact .mark (l := ⟨pos, start, .jump, _⟩) (List.mem_singleton.2 rfl)

theorem mem_flows_branch (branch : Branch) {target : Nat} {x : Nat × Height}
    (hx : x ∈ Line.flows ⟨pos, offset, branch.op, [target]⟩ h) (body : Code) :
    x = (target, (skip pos branch body).after h) ∨ x = (offset + jumpLength, h.pop) := by
  have hlength : branch.op.length = jumpLength := branch.length_op
  cases branch <;> simp only [Branch.op] at hlength hx <;> simpa [Line.flows, hlength] using hx

theorem mem_flows_instr {op : Opcode} {operands : List Nat} {x : Nat × Height} (hjump : op.isJump = false)
    (hx : x ∈ Line.flows ⟨pos, offset, op, operands⟩ h) :
    op.isLast = false ∧ x = (offset + op.length, h.after op operands) := by
  cases op <;> first | (cases hjump; done) | (cases hx; done) | exact ⟨rfl, List.mem_singleton.1 hx⟩

variable (hc : c.Balanced inLoop h)
include hc

/-- Every instruction finds what it takes, and from it control goes to instructions that expect what is
waiting, or out of the code. -/
theorem Balanced.mark (hmem : (l, k) ∈ c.marks start stop next h) :
    k.Suffices l.op l.operands ∧ ∀ x ∈ l.flows k, c.Leads inLoop start stop next h x.1 x.2 := by
  have hjump : ∀ {k : Height}, k.Suffices .jump [] := ⟨Nat.zero_le _, Nat.zero_le _, fun h => by cases h⟩
  have hbranch : ∀ {k : Height} (branch : Branch) target, 0 < k.values → k.Suffices branch.op [target] := by
    intro k branch target hpos
    cases branch <;> exact ⟨hpos, Nat.zero_le _, fun h => by cases h⟩
  induction c generalizing inLoop start stop next h with
  | nop => cases hmem
  | instr pos op operands =>
    cases List.mem_singleton.1 hmem
    refine ⟨hc.2, fun x hx => ?_⟩
    obtain ⟨hlast, rfl⟩ := mem_flows_instr hc.1 hx
    exact .last (by simp [hlast])
  | seq a b iha ihb =>
    rw [marks_seq] at hmem
    rcases List.mem_append.1 hmem with hmem | hmem
    · exact (iha hc.1 hmem).imp_right fun hleads x hx => (hleads x hx).left hc.2.enter.right
    · exact (ihb hc.2 hmem).imp_right fun hleads x hx => (hleads x hx).right
  | skip pos branch body ih =>
    obtain ⟨hpos, hbody, hafter⟩ := hc
    rcases List.mem_cons.1 hmem with hfirst | hmem
    · cases hfirst
      refine ⟨hbranch branch _ hpos, fun x hx => ?_⟩
      rcases mem_flows_branch branch hx body with rfl | rfl
      · rw [Nat.add_assoc]
        exact .last rfl
      · exact hbody.enter.skipped hafter
    · exact (ih hbody hmem).imp_right fun hleads x hx => (hleads x hx).skipped hafter
  | choose pos yes no ihy ihn =>
    obtain ⟨hpos, hyes, hno, hafter⟩ := hc
    rw [marks_choose] at hmem
    rcases List.mem_cons.1 hmem with htest | hmem
    · cases htest
      refine ⟨hbranch .onFalsy _ hpos, fun x hx => ?_⟩
      rcases mem_flows_branch .onFalsy hx no with rfl | rfl
      · exact hno.enter.other hafter
      · exact hyes.enter.chosen
    rcases List.mem_append.1 hmem with hmem | hmem
    · exact (ihy hyes hmem).imp_right fun hleads x hx => (hleads x hx).chosen
    rcases List.mem_cons.1 hmem with hskip | hmem
    · cases hskip
      refine ⟨hjump, fun x hx => ?_⟩
      cases List.mem_singleton.1 hx
      exact leads_chosen
    · exact (ihn hno hmem).imp_right fun hleads x hx => (hleads x hx).other hafter
  | loop pos head tests body post ihh ihb ihp =>
    obtain ⟨hground, ⟨hhead, hafter⟩, ⟨hbody, hround⟩, hpost, hbetween⟩ := hc
    have hagain : (loop pos head tests body post).Leads inLoop start stop next h _ h :=
      hpost.enter.between hbetween
    have hinside : (loop pos head tests body post).Leads inLoop start stop next h _ h :=
      hbody.enter.round hground hround hagain
    have htest := leads_test hground hafter hinside
    rw [marks_loop] at hmem
    rcases List.mem_append.1 hmem with hmem | hmem
    · exact (ihh hhead hmem).imp_right fun hleads x hx => (hleads x hx).ahead htest
    rcases List.mem_append.1 hmem with hmem | hmem
    · cases tests with
      | true =>
        cases List.mem_singleton.1 hmem
        refine ⟨by rw [hafter]; exact hbranch .onFalsy _ Nat.one_pos, fun x hx => ?_⟩
        rcases mem_flows_branch .onFalsy hx body with rfl | rfl
        · have hlast : (loop pos head true body post).Leads inLoop start stop next h _ _ := .last rfl
          simp only [size, after, ← Nat.add_assoc] at hlast
          simp only [after, hafter]
          rw [hground] at hlast ⊢
          exact hlast
        · rw [hafter]
          rw [hground] at hinside ⊢
          exact hinside
      | false => cases hmem
    rcases List.mem_append.1 hmem with hmem | hmem
    · exact (ihb hbody hmem).imp_right fun hleads x hx => (hleads x hx).round hground hround hagain
    rcases List.mem_append.1 hmem with hmem | hmem
    · exact (ihp hpost hmem).imp_right fun hleads x hx => (hleads x hx).between hbetween
    · cases List.mem_singleton.1 hmem
      refine ⟨hjump, fun x hx => ?_⟩
      cases List.mem_singleton.1 hx
      exact hhead.enter.ahead htest
  | leave pos isBreak =>
    obtain ⟨hloop, rfl⟩ := hc
    cases List.mem_singleton.1 hmem
    refine ⟨hjump, fun x hx => ?_⟩
    cases List.mem_singleton.1 hx
    cases isBreak with
    | true => exact .stop hloop
    | false => exact .next hloop

/-- Control goes on to instructions that expect what is waiting, or out of the code. -/
theorem Balanced.flows (hmem : (l, k) ∈ c.marks start stop next h) :
    ∀ x ∈ l.flows k, c.Leads inLoop start stop next h x.1 x.2 := (hc.mark hmem).2

theorem Balanced.suffices (hmem : (l, k) ∈ c.marks start stop next h) : k.Suffices l.op l.operands :=
  (hc.mark hmem).1

/-- Jumps are part of the structure, not single instructions. -/
theorem Balanced.plain : c.All fun op _ => op.isJump = false := by
  induction c generalizing inLoop h with
  | nop | leave => trivial
  | instr pos op operands => exact hc.1
  | seq a b iha ihb => exact ⟨iha hc.1, ihb hc.2⟩
  | skip pos branch body ih => exact ih hc.2.1
  | choose pos yes no ihy ihn => exact ⟨ihy hc.2.1, ihn hc.2.2.1⟩
  | loop pos head tests body post ihh ihb ihp => exact ⟨ihh hc.2.1.1, ihb hc.2.2.1.1, ihp hc.2.2.2.1⟩

end Leads

/-- Control stays in code that it cannot leave. -/
theorem Leads.exists_mark {h : Height} (hleads : c.Leads false start stop next h o k) (hfalls : c.falls = false) :
    ∃ l, (l, k) ∈ c.marks start stop next h ∧ l.offset = o := by
  cases hleads with
  | mark hmem => exact ⟨_, hmem, rfl⟩
  | last hlast =>
    rw [hfalls] at hlast
    cases hlast
  | stop hloop | next hloop => cases hloop

/-- Something is known to be waiting at every instruction. -/
theorem exists_height (hl : l ∈ c.lines start stop next) (h : Height) : ∃ k, (l, k) ∈ c.marks start stop next h := by
  obtain ⟨i, hi, rfl⟩ := List.getElem_of_mem hl
  have hheight : i < (c.heights h).length := by rwa [length_heights c start stop next]
  refine ⟨(c.heights h)[i], List.mem_iff_getElem.2 ⟨i, ?_, List.getElem_zip⟩⟩
  rw [marks, List.length_zip]
  omega

end Code

end ScriptEngine
