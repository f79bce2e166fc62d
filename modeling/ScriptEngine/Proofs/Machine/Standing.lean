import ScriptEngine.Proofs.Machine.Within
import ScriptEngine.Proofs.Program.Certified
/-!
# Frames at offsets that certificates know

In a run of a certified program every active call is at an offset that the certificate of its function
knows, as long as the machine holds no other functions than those of the program (`Program.homeLaw`). Main
statement: every step keeps it so (`Exec.stand_begin`), and only the outermost call ever suspends.
-/

namespace ScriptEngine

variable {hosted : Bool} {flow : Flow} {h : Height} {i : Instruction} {inv : Invoke} {rest : List Frame}
  {captured globals n : Nat} {last : Opcode} {pause : Pause} {p : Program} {k : Screen} {s : Setting} {v : Value}
  {law : ValueLaw}

variable {f : Frame}

/-- The functions that a law admits are those of a certified program. -/
structure ValueLaw.Trusts (law : ValueLaw) (k : Screen) (globals : Nat) (s : Setting) : Prop where
  governs : law.Governs s
  function : ∀ f, law.function f → f.AtHome k s.program globals
  constants : ∀ (i : Nat) v, s.program.constants[i]? = some v → v.IsClosed → v.Obeys law
  closures : ∀ i f, s.program.functionAt? i = some f → ∀ id (captured : Array Addr), f.CapturesBelow captured.size →
    (∀ a ∈ captured, law.cells a) → law.function { f with id, captured }
  builtins : ∀ b, law.native (.builtin b)
  texts : ∀ t, law.string t

section Trust

variable {slots : Nat}

/-- An instruction that suits a certificate is lawful. -/
theorem ValueLaw.Trusts.lawful (htrusts : law.Trusts k globals s)
    (hi : i.Suits k s.program globals slots captured last h) : i.Lawful law s.program := by
  have hsupplies := hi.supplies
  rw [Instruction.Supplies] at hsupplies
  rw [Instruction.Lawful]
  cases hop : i.op <;> rw [hop] at hsupplies <;> try trivial
  case const => exact fun v hv => htrusts.constants _ v hv (hsupplies v hv)
  case closure => exact fun f hf id captured hsize => htrusts.closures _ f hf id captured (hsize ▸ hsupplies f hf)
  case getBuiltin => exact fun b _ => htrusts.builtins b
  case iterKey => exact htrusts.texts

end Trust

/-- The law that all functions are those of a program; native functions of the host may be banned. -/
def Program.homeLaw (p : Program) (k : Screen) (globals : Nat) (hosted : Bool) : ValueLaw where
  string _ := True
  bufferSize _ := True
  arraySize _ := True
  function f := f.AtHome k p globals
  code f := f = p.main ∨ f.AtHome k p globals
  native
    | .builtin _ => True
    | .host _ => hosted = true
  buffers _ := True
  arrays _ := True
  maps _ := True
  iterators _ := True
  cells _ := True
  active _ h := .inr h
  captured _ _ _ _ := trivial

/-- Nothing is in the empty heap. -/
theorem Heap.obeys_homeLaw_empty : ({} : Heap).Obeys (p.homeLaw k globals hosted) where
  buffer _ _ := trivial
  array _ _ := trivial
  items _ _ v hv := absurd hv (Array.not_mem_empty v)
  entries _ _ _ he := absurd he List.not_mem_nil
  iterator _ _ v hv := absurd hv (Array.not_mem_empty v)
  cell _ _ := trivial
  newBuffer _ := trivial
  newArray _ := trivial
  newMap _ := trivial
  newIterator _ := trivial
  newCell _ := trivial

/-- What the functions of the host do obeys a law. -/
def Host.Obeys (law : ValueLaw) (host : Host) : Prop :=
  ∀ name args, law.native (.host name) → (∀ v ∈ args, v.Obeys law) → (host name args).Obeys law

/-- What a constant can be: a literal, a function or a module. -/
def Value.IsPlain (v : Value) : Prop := v.IsLiteral ∨ (∃ f, v = .function f) ∨ ∃ a, v = .frozenMap a

/-- The constants of a compiled program are literals, functions and modules. -/
theorem isPlain_of_compile {o : CompileOptions} {files : FileSet} {symbols : SymbolTable} {file : File} {h : Heap}
    (hsymbols : symbols.Initial) (hmaps : o.modules.ProvidesMaps)
    (hok : (compile o files symbols file h).result = .ok p) : ∀ v ∈ p.constants, v.IsPlain := by
  obtain ⟨c, σ, hlowers, -, -, hp⟩ := lowers_of_compile hok
  have hplain : ∀ v ∈ σ.constants, v.IsPlain := by
    intro v hv
    rcases (hlowers.proceeds.adds v hv).resolve_left (Array.not_mem_empty v) with hliteral | hfunction | ⟨name, hname⟩
    · exact .inl hliteral
    · exact .inr (.inl hfunction)
    · exact .inr (.inr (hmaps name v hname))
  rw [hp]
  split
  · -- what is left after merging was a constant before, up to the numbers in functions
    have hsound := hlowers.sound_toProgram files hsymbols hmaps o.modules.passes_any (Stmt.allPass_any file.stmts)
    have hmerges := Program.dedup_merges hsound.laidOut (compile o files symbols file h).heap
    intro u hu
    obtain ⟨j, hj⟩ := Array.mem_iff_getElem?.1 hu
    obtain ⟨i, v, hv, -, hrenumbered, -⟩ := hmerges.origin j u hj
    have hv := hplain v (Array.mem_of_getElem? hv)
    cases v with
    | function f =>
      obtain ⟨g, rfl, -⟩ := hrenumbered
      exact .inr (.inl ⟨g, rfl⟩)
    | _ => exact hrenumbered ▸ hv
  · exact hplain

/-- A certified program can be trusted. -/
theorem Program.Certified.trusts (h : s.program.Certified k globals) (hplain : ∀ v ∈ s.program.constants, v.IsPlain)
    (hhost : s.host.Obeys (s.program.homeLaw k globals hosted)) :
    (s.program.homeLaw k globals hosted).Trusts k globals s where
  governs := ⟨⟨fun _ _ => trivial, fun _ _ => trivial, fun _ _ => trivial, fun _ _ _ _ => trivial,
    fun _ _ _ _ => trivial, fun _ _ _ _ => trivial, fun _ _ => trivial⟩, fun _ _ _ _ _ => trivial, hhost⟩
  function _ hf := hf
  constants i v hv hclosed := by
    rcases hplain v (Array.mem_of_getElem? hv) with hliteral | ⟨f, rfl⟩ | ⟨a, rfl⟩
    · cases v <;> trivial
    · have hf : s.program.functionAt? i = some f := by rw [functionAt?, hv]
      obtain ⟨hcaptured, -⟩ := h.functions i f hf
      have hbelow : f.CapturesBelow f.captured.size := by
        rw [hcaptured]
        exact hclosed f rfl
      exact h.atHome hf f.id hbelow
    · trivial
  closures i f hf id captured hbelow _ := h.atHome hf id hbelow
  builtins _ := trivial
  texts _ := trivial

/-! ### Frames -/

section Frames

/-- A call is at an offset that a certificate of its function knows. -/
def Frame.Stands (k : Screen) (p : Program) (globals : Nat) (last : Opcode) (f : Frame) : Prop :=
  ∃ captured heightAt h, f.func.Certified k p globals captured last heightAt ∧ heightAt f.next = some h

/-- What ends the function of a call besides a return: only the outermost call may end the run. -/
def ending : List Frame → Opcode
  | [] => .suspend
  | _ :: _ => .ret

/-- All calls are at offsets that certificates know. -/
def Stand (k : Screen) (p : Program) (globals : Nat) : List Frame → Prop
  | [] => True
  | f :: rest => f.Stands k p globals (ending rest) ∧ Stand k p globals rest

theorem Function.Certified.weaken {heightAt : Nat → Option Height} {f : Function}
    (h : f.Certified k p globals captured .ret heightAt) : f.Certified k p globals captured last heightAt where
  start := h.start
  step n height hn := by
    obtain ⟨i, hi, hsuits, hexits⟩ := h.step n height hn
    exact ⟨i, hi, { hsuits with last := fun hlast => .inl ((or_self_iff).1 (hsuits.last hlast)) }, hexits⟩

/-- A function that can be called stands at its start. -/
theorem Function.AtHome.stands (h : f.func.AtHome k p globals) (hnext : f.next = 0) : f.Stands k p globals last := by
  obtain ⟨heightAt, hcertified⟩ := h
  exact ⟨_, heightAt, .ground, hcertified.weaken, by rw [hnext]; exact hcertified.start⟩

end Frames

namespace Exec

variable {floor : Nat} {m m' : Machine}

/-- What an instruction gets to obeys a law. -/
def Pause.Obeys (law : ValueLaw) : Pause → Prop
  | .flow (.returned v) => v.Obeys law
  | .native f args => law.native f ∧ ∀ v ∈ args, v.Obeys law
  | _ => True

/-- The innermost call goes on at another offset. -/
def aim (target : Nat) : List Frame → List Frame
  | [] => []
  | f :: rest => { f with next := target } :: rest

/-- Frames are left as they are, or a jump aims the innermost one at its target. -/
def Jumped (i : Instruction) (m m' : Machine) : Prop :=
  m'.frames = m.frames ∨ i.op.isJump = true ∧ m'.frames = aim i.first m.frames

theorem aim_aim (target : Nat) (frames : List Frame) : aim target (aim target frames) = aim target frames := by
  cases frames <;> rfl

theorem calm_jumped (i : Instruction) : Calm (Jumped i) where
  kept h := .inl h.frames
  trans := by
    rintro m1 m2 m3 (h | ⟨hjump, h⟩) (h' | ⟨hjump', h'⟩)
    · exact .inl (h'.trans h)
    · exact .inr ⟨hjump', h ▸ h'⟩
    · exact .inr ⟨hjump, h'.trans h⟩
    · refine .inr ⟨hjump, ?_⟩
      rw [h', h, aim_aim]

theorem jumped_jump (hjump : i.op.isJump = true) : Within (Jumped i) (jump i.first) := by
  intro m
  rw [jump]
  cases hframes : m.frames with
  | nil => exact .fault (.inl rfl)
  | cons f rest =>
    refine .ok (.inr ⟨hjump, ?_⟩)
    rw [hframes]
    rfl

/-- Where control goes on after an instruction is one of its exits. -/
theorem exits_next (h : Height) (hlast : i.op.isLast = false) (hop : i.op ≠ .jump) :
    ∃ h', (i.next, h') ∈ i.exits h := by
  obtain ⟨offset, op, operands⟩ := i
  cases op with
  | jump => exact absurd rfl hop
  | jumpFalsy | andJump | orJump => exact ⟨_, .tail _ (.head _)⟩
  | ret | suspend => cases hlast
  | _ => exact ⟨_, .head _⟩

theorem exits_target (h : Height) (hjump : i.op.isJump = true) : ∃ h', (i.first, h') ∈ i.exits h := by
  obtain ⟨offset, op, operands⟩ := i
  cases op with
  | jump | jumpFalsy | andJump | orJump => exact ⟨_, .head _⟩
  | _ => cases hjump

/-- What is known about an instruction that is executed next. -/
structure Ready (k : Screen) (s : Setting) (globals : Nat) (i : Instruction) (h : Height) (f : Frame) (rest : List Frame)
    (m : Machine) : Prop where
  frames : m.frames = f :: rest
  next : f.next = i.next
  suits : ∃ captured, i.Suits k s.program globals f.func.locals captured (ending rest) h
  exits : ∀ x ∈ i.exits h, ({ f with next := x.1 } : Frame).Stands k s.program globals (ending rest)
  below : Stand k s.program globals rest

/-- The calls stand where an instruction leaves them that goes on after itself. -/
theorem Ready.stand (hready : Ready k s globals i h f rest m) (hlast : i.op.isLast = false) (hop : i.op ≠ .jump) :
    Stand k s.program globals m.frames := by
  obtain ⟨h', hx⟩ := exits_next h hlast hop
  have hstands := hready.exits _ hx
  rw [hready.frames]
  rw [← hready.next] at hstands
  exact ⟨hstands, hready.below⟩

/-- An instruction is read at an offset that a certificate knows. -/
theorem ready_fetch (hstand : Stand k s.program globals m.frames) (hfetch : fetch m = .ok i m') :
    ∃ h f rest, Ready k s globals i h f rest m' ∧ rest.length + 1 = m.frames.length ∧
      ∀ law, m.Orderly s law → m'.Orderly s law := by
  cases hframes : m.frames with
  | nil =>
    rw [fetch_none hframes] at hfetch
    cases hfetch
  | cons f rest =>
    rw [hframes] at hstand
    obtain ⟨⟨captured, heightAt, h, hcertified, hat⟩, hrest⟩ := hstand
    obtain ⟨j, hj, hsuits, hexits⟩ := hcertified.step _ _ hat
    rw [fetch_eq hframes, hj] at hfetch
    cases hfetch
    refine ⟨h, _, rest, ⟨rfl, rfl, ⟨captured, hsuits⟩, fun x hx => ?_, hrest⟩, rfl, fun law hm => ?_⟩
    · obtain ⟨h', hx', -⟩ := hexits x hx
      exact ⟨captured, heightAt, h', hcertified, hx'⟩
    · exact (Keeps.after_frame (g := { f with current := i.offset, next := i.next }) hm hframes rfl).orderly

theorem frames_tick (h : tick s m = .ok () m') : m'.frames = m.frames := by
  rw [tick] at h
  split at h
  · rw [eq_of_checkToken h]
  · cases h
    rfl

theorem frames_leave (h : leave s floor v m = .ok flow m') : m'.frames = m.frames.tail := by
  rw [leave] at h
  cases hframes : m.frames with
  | nil =>
    rw [hframes] at h
    cases h
  | cons f rest =>
    rw [hframes] at h
    dsimp only at h
    split at h
    · cases h
      rfl
    · exact ((Within.next calm_kept (.push calm_kept v) (.pure calm_kept Flow.goOn)).of_ok h).frames

/-- An instruction that calls nothing leaves calls at offsets that certificates know, unless it ends the run. -/
theorem stand_execute (hready : Ready k s globals i h f rest m) (hcall : i.op ≠ .call)
    (hr : execute s inv floor i m = .ok flow m') (hflow : flow ≠ .suspended) : Stand k s.program globals m'.frames := by
  obtain ⟨offset, op, operands⟩ := i
  have hwithin : Opcode.isLast op = false → op ≠ .jump → Stand k s.program globals m'.frames := by
    intro hlast hop
    have hwithin : Within (Jumped ⟨offset, op, operands⟩) (execute s inv floor ⟨offset, op, operands⟩) :=
      .execute (calm_jumped _) jumped_jump (fun h => absurd h hcall) (fun hret => by cases hret; cases hlast)
    rcases hwithin.of_ok hr with hsame | ⟨hjump, haim⟩
    · rw [hsame]
      exact hready.stand hlast hop
    · obtain ⟨h', hx⟩ := exits_target h hjump
      rw [haim, hready.frames]
      exact ⟨hready.exits _ hx, hready.below⟩
  cases op with
  | ret =>
    rw [execute_ret] at hr
    obtain ⟨v, m1, hv, hleave⟩ := bind_eq_ok hr
    have hkept := (Within.ite (.pop calm_kept) (.pure calm_kept Value.undefined)).of_ok hv
    rw [frames_leave hleave, hkept.frames, hready.frames]
    exact hready.below
  | suspend =>
    cases hr
    exact absurd rfl hflow
  | jump =>
    have hjump : execute s inv floor ⟨offset, .jump, operands⟩ m = (do jump (operands.headD 0); return Flow.goOn) m :=
      rfl
    rw [hjump, bind_ok (jump_eq hready.frames _)] at hr
    cases hr
    exact ⟨hready.exits _ (.head _), hready.below⟩
  | _ => exact hwithin rfl (fun h => by cases h)

/-- A function is called: it gets a call of its own, or the innermost one starts again. -/
theorem stand_callFunction {g : Function} {mayReuse : Bool} (hg : g.AtHome k s.program globals)
    (hstand : Stand k s.program globals m.frames) (hr : callFunction s g n mayReuse m = .ok () m') :
    Stand k s.program globals m'.frames := by
  rw [callFunction_eq] at hr
  obtain ⟨n', m1, hrest, hbegin⟩ := bind_eq_ok hr
  have hframes := ((Within.collectRest calm_kept g n).of_ok hrest).frames
  rw [beginCall] at hbegin
  split at hbegin
  · cases hbegin
  · split at hbegin
    · next frame outer hreuse =>
      rw [restart, bind_ok (x := modify _) rfl] at hbegin
      rw [((Within.reserveLocals calm_kept g frame.base).of_ok hbegin).frames]
      rw [← hframes, eq_of_reusable hreuse] at hstand
      exact ⟨hg.stands rfl, hstand.2⟩
    · split at hbegin
      · cases hbegin
      · obtain ⟨u, m2, hreserve, hend⟩ := bind_eq_ok hbegin
        have hkept := (Within.reserveLocals calm_kept g _).of_ok hreserve
        cases hend
        show Stand k s.program globals ({ func := g, base := m1.stack.size - n' } :: m2.frames)
        rw [hkept.frames, hframes]
        exact ⟨hg.stands rfl, hstand⟩

/-! ### Steps -/

/-- A return does not end the run. -/
theorem ensures_leave : Ensures (· ≠ Flow.suspended) (leave s floor v) := by
  intro m flow m' hr
  rintro rfl
  rw [leave] at hr
  split at hr
  · cases hr
  · split at hr
    · cases hr
    · obtain ⟨u, m1, hpush, hgoOn⟩ := bind_eq_ok hr
      cases hgoOn

/-- Only one instruction ends the run. -/
theorem op_of_suspended (h : execute s inv floor i m = .ok .suspended m') : i.op = .suspend := by
  obtain ⟨offset, op, operands⟩ := i
  cases op with
  | suspend => rfl
  | ret =>
    rw [execute_ret] at h
    exact absurd rfl (ensures_bind (fun _ => ensures_leave) m _ m' h)
  | _ => exact Flow.noConfusion (ensures_execute (fun h => by cases h) (fun h => by cases h) m _ m' h)

/-- A call gets to a function of the program or to the body of a native function. -/
theorem stand_approach (htrusts : law.Trusts k globals s) (hm : m.Orderly s law)
    (hstand : Stand k s.program globals m.frames) (hr : approach s n m = .ok pause m') :
    m'.Orderly s law ∧ pause.Obeys law ∧ Stand k s.program globals m'.frames ∧ pause ≠ .flow .suspended := by
  have hcallee := Keeps.obeys_getD hm (m.stack.size - (n + 1))
  rcases approach_ok hr with ⟨g, hg, hcall, rfl⟩ | ⟨g, args, hg, htake, rfl⟩ <;> rw [hg] at hcallee
  · have hkeeps := (Keeps.callFunction htrusts.governs hcallee n true).leaving hm hcall
    exact ⟨hkeeps.2.orderly, trivial, stand_callFunction (htrusts.function g hcallee) hstand hcall, fun h => by cases h⟩
  · have hkeeps := (Keeps.takeArguments n).leaving hm htake
    refine ⟨hkeeps.2.orderly, ⟨hcallee, fun v hv => hkeeps.1 v (Array.mem_toList_iff.1 hv)⟩, ?_, fun h => by cases h⟩
    rw [((Within.takeArguments calm_kept n).of_ok htake).frames]
    exact hstand

/-- A step up to the body of a native function keeps all that is known about the calls, unless it ends the
run; and that only the outermost call does. -/
theorem stand_begin (htrusts : law.Trusts k globals s) (hm : m.Orderly s law)
    (hstand : Stand k s.program globals m.frames) (hr : begin s floor m = .ok pause m') :
    m'.Orderly s law ∧ pause.Obeys law ∧ (pause ≠ .flow .suspended → Stand k s.program globals m'.frames) ∧
      (pause = .flow .suspended → m.frames.length = 1) := by
  obtain ⟨u, m1, htick, hr⟩ := bind_eq_ok hr
  obtain ⟨i, m2, hfetch, hadvance⟩ := bind_eq_ok hr
  have h1 := (Keeps.tick htrusts.governs).leaving hm htick
  have hframes : m1.frames = m.frames := frames_tick htick
  rw [← hframes] at hstand ⊢
  obtain ⟨h, f, rest, hready, hlength, hobeys⟩ := ready_fetch hstand hfetch
  obtain ⟨captured, hsuits⟩ := hready.suits
  have h2 := hobeys law h1.2.orderly
  rw [advance] at hadvance
  split at hadvance
  · next hcall =>
    obtain ⟨n, m3, hn, hr⟩ := bind_eq_ok hadvance
    have h3 := (Keeps.ite (Keeps.spread htrusts.governs _) (Keeps.pure trivial)).leaving h2 hn
    have hkept := (Within.ite (.spread calm_kept i.first) (.pure calm_kept i.first)).of_ok hn
    have hstand3 : Stand k s.program globals m3.frames := by
      rw [hkept.frames]
      exact hready.stand (by rw [hcall]; rfl) (by rw [hcall]; intro h; cases h)
    obtain ⟨hm', hpause, hstand', hne⟩ := stand_approach htrusts h3.2.orderly hstand3 hr
    exact ⟨hm', hpause, fun _ => hstand', fun h => absurd h hne⟩
  · next hcall =>
    obtain ⟨flow, m3, hflow, hr⟩ := bind_eq_ok hadvance
    cases hr
    have h3 := (Keeps.execute htrusts.governs floor (htrusts.lawful hsuits) hcall).leaving h2 hflow
    refine ⟨h3.2.orderly, ?_, fun hne => ?_, fun heq => ?_⟩
    · cases flow with
      | returned v => exact h3.1 v rfl
      | goOn | suspended => trivial
    · exact stand_execute hready hcall hflow fun h => hne (by rw [h])
    · cases heq
      have hop := op_of_suspended hflow
      cases rest with
      | nil => exact hlength.symm
      | cons g rest =>
        have hlast := hsuits.last (by rw [hop]; rfl)
        rw [hop] at hlast
        rcases hlast with h | h <;> cases h

end Exec

end ScriptEngine
