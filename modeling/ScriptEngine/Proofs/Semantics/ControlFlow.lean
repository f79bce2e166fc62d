import ScriptEngine.Proofs.Compiler.Files
import ScriptEngine.Proofs.Machine.Configurations
import ScriptEngine.Proofs.Program.Renumbered
import ScriptEngine.Proofs.Semantics.Simulation
/-!
# Programs without functions run as the interpreter says

The compiled main program and the interpreter of its syntax tree agree: on how a run ends, on the
variables and on the heap. Merging equal constants makes no difference, since all constants of such a
program are literals.
-/

namespace ScriptEngine

open Exec Machine

variable {c : Code} {m m' : Machine} {slots : Nat} {s : Setting} {α : Type}

/-! ### Symbols -/

namespace SymbolTable

variable {t : SymbolTable}

/-- The names of the main program are global variables and builtins. -/
structure Ready (t : SymbolTable) : Prop where
  nonempty : root < t.scopes.size
  parent : (t.scope root).parent = none
  names : ∀ name id, (t.scope root).names.find? name = some id → id < t.symbols.size ∧
    ∃ place, (t.symbol id).place? = some place ∧ place.Below (t.scope root).defined
  peak : (t.scope root).defined ≤ t.slots root

/-- What is known before the main program. -/
def env (t : SymbolTable) : Env where
  places := fun name => ((t.scope root).names.find? name).bind fun id => (t.symbol id).place?
  next := (t.scope root).defined

theorem Ready.sees (h : t.Ready) (functions : Nat) : (Stage.initial t functions).Sees t.env where
  nonempty := h.nonempty
  places := by
    refine .root h.parent ⟨fun name id hfind => ?_, fun name hfind => ?_⟩
    · obtain ⟨hid, place, hplace, hbelow⟩ := h.names name id hfind
      exact ⟨hid, place, hplace, Option.bind_eq_some_iff.2 ⟨id, hfind, hplace⟩, hbelow⟩
    · exact Option.bind_eq_none_iff.2 fun id hid => by cases hfind.symm.trans hid
  next := rfl
  peak := h.peak

/-- A table whose names have places is ready if its root counts no more than it has. -/
theorem Housed.ready (h : t.Housed) (hnonempty : root < t.scopes.size) (hparent : (t.scope root).parent = none)
    (hpeak : t.slots root = (t.scope root).defined) : t.Ready := by
  refine ⟨hnonempty, hparent, fun name id hfind => ⟨(h.closed root name id hfind).1, ?_⟩, Nat.le_of_eq hpeak.symm⟩
  have hwithin : (t.symbol id).Within (t.extent root) := h.names root name id hfind
  rw [extent, enclosing, parentOf_eq_none hparent] at hwithin
  generalize t.symbol id = sym at hwithin ⊢
  obtain ⟨name, storage, index, assigned⟩ := sym
  cases storage with
  | global => exact ⟨.slot index, rfl, hpeak ▸ hwithin⟩
  | builtin => exact ⟨.builtin _, congrArg (Option.map Place.builtin) (Array.getElem?_eq_getElem hwithin), trivial⟩
  | slot | captured => exact absurd hwithin (Nat.not_lt_zero _)

end SymbolTable

/-! ### Runs -/

/-- The variables and the heap of a machine. -/
def Machine.world (m : Machine) : World m.globals.size := ⟨⟨m.globals, rfl⟩, m.heap⟩

/-- A machine that has entered the main function. -/
def Machine.entered (s : Setting) (m : Machine) : Machine :=
  { m.reset s with frames := [{ func := s.program.main, base := 0 }] }

/-- Where the main program runs. -/
def Setting.seat (s : Setting) (m : Machine) (htoken : m.token.check = .ok ()) : Seat where
  shell := m.entered s
  frame := { func := s.program.main, base := 0 }
  outer := []
  first := 0
  last := s.program.main.code.size
  token := htoken

section Run

theorem Exec.reserveLocals_none {f : Function} (hlocals : f.locals = 0) (m : Machine) :
    reserveLocals s f 0 m = .ok () m := by
  obtain ⟨id, code, locals, parameters, variadic, positions, captured⟩ := f
  subst hlocals
  simp [reserveLocals, fillUp]

/-- A run enters the main function, unless somebody asked to stop. -/
theorem Exec.start_eq (htoken : m.token.check = .ok ()) (hlocals : s.program.main.locals = 0) (fuel : Nat) :
    start s fuel (m.reset s) = runLoop s fuel 0 (m.entered s) := by
  have hcheck : checkToken (m.reset s) = .ok () (m.reset s) := by
    simp only [checkToken, reset, htoken]
  have henter : enter s s.program.main 0 (m.reset s) = .ok () (m.entered s) := by
    rw [enter, bind_ok (reserveLocals_none hlocals _)]
    rfl
  rw [start, bind_ok hcheck, bind_ok henter]

/-- The outcome of a run, given the outcome of its steps. -/
def Machine.finished : EStateM.Result Halt Machine (Option Value) → EStateM.Result Halt Machine Value
  | .ok v m => .ok (v.getD .undefined) { m with status := .suspended }
  | .error .outOfFuel m => .error .outOfFuel m
  | .error (.failure f) m => .error (.failure f) { m with status := .aborted, frames := [], stack := #[] }

theorem Machine.run_eq (htoken : m.token.check = .ok ()) (hlocals : s.program.main.locals = 0) (fuel : Nat) :
    m.run s fuel = finished (runLoop s fuel 0 (m.entered s)) := by
  rw [← start_eq htoken hlocals]
  rfl

theorem Machine.ends_run (htoken : m.token.check = .ok ()) (hlocals : s.program.main.locals = 0)
    {r : EStateM.Result Halt Machine (Option Value)}
    (h : Ends (fun fuel => runLoop s fuel 0 (m.entered s)) r) : Ends (fun fuel => run s fuel m) (finished r) := by
  obtain ⟨k, hk⟩ := h
  refine ⟨k, fun fuel => ?_⟩
  have hk := hk fuel
  dsimp only at hk
  simp only [run_eq htoken hlocals]
  rcases hk with ⟨hle, m', hm'⟩ | ⟨hlt, hr⟩
  · refine .inl ⟨hle, m', ?_⟩
    rw [hm']
    rfl
  · refine .inr ⟨hlt, ?_⟩
    rw [hr]

/-- The main function is the layout of some code of a program without functions. -/
structure Setting.Main (s : Setting) (c : Code) : Prop where
  locals : s.program.main.locals = 0
  code : s.program.main.code = (bytesOf (c.ending.lines 0 0 0)).toArray
  basic : c.All (Opcode.Basic 0)
  ends : ∀ fuel, EndsHere (c.exec s fuel)
  small : c.ending.size < capacity 4

variable {fuel : Nat}

theorem Setting.Main.lines (h : s.Main c) (htoken : m.token.check = .ok ()) :
    ∀ l ∈ c.ending.lines 0 0 0, (s.seat m htoken).Has l := by
  intro l hl
  have hfits : c.ending.Fits := ⟨h.basic.imp fun _ _ hbasic => hbasic.fits, trivial⟩
  have hin : l.In s.program.main.code := by
    rw [h.code]
    exact c.ending.in_lines 0 0 l hl
  exact {
    stands := hin
    fits := Code.fits_lines hfits (by rw [Nat.zero_add]; exact h.small) (by decide) (by decide) l hl
    lower := Nat.zero_le _
    upper := (Array.getElem?_eq_some_iff.1 hin.byte).1 }

/-- At its end the main program suspends. -/
theorem Setting.Main.suspends (h : s.Main c) {htoken : m.token.check = .ok ()} {shell : Machine}
    (hat : (s.seat m htoken).At c.size shell) :
    ∃ shell', ∀ fuel, runLoop s (fuel + 1) 0 (m'.inside shell) = .ok none (m'.inside shell') := by
  have hlast : ⟨Pos.unknown, 0 + c.size, .suspend, []⟩ ∈ c.ending.lines 0 0 0 :=
    List.mem_append_right _ (List.mem_singleton.2 rfl)
  rw [Nat.zero_add] at hlast
  obtain ⟨shell', -, hstep⟩ := hat.step (h.lines htoken _ hlast).stands
  refine ⟨shell', fun fuel => ?_⟩
  have hsuspend : step s (invoke s fuel) 0 (m'.inside shell) = .ok .suspended (m'.inside shell') :=
    hstep m' _ 0
  simp only [runLoop, hsuspend]

/-- What a run does, given the outcome of running the main code by its structure. -/
def Machine.RunsAs (s : Setting) (fuel : Nat) (m : Machine) : EStateM.Result Halt Machine Exit → Prop
  | .ok e m' => e = .next ∧ ∃ m₁, m₁.globals = m'.globals ∧ m₁.heap = m'.heap ∧
    Ends (fun n => run s n m) (.ok .undefined m₁)
  | .error (.failure f) m' => ∃ g m₁, g.cause = f.cause ∧ m₁.globals = m'.globals ∧ m₁.heap = m'.heap ∧
    Ends (fun n => run s n m) (.error (.failure g) m₁)
  | .error .outOfFuel _ => ∃ m₁, m.run s fuel = .error .outOfFuel m₁

theorem Setting.Main.runsAs (h : s.Main c) (htoken : m.token.check = .ok ()) :
    m.RunsAs s fuel (c.exec s fuel (m.entered s)) := by
  have hlands : Lands s 0 fuel (s.seat m htoken) (Exit.target (0 + c.size) 0 0) (m.entered s)
      (c.exec s fuel (m.entered s)) :=
    Code.lands (h.basic.imp fun _ _ hbasic => hbasic.steady)
      (fun l hl => h.lines htoken l (List.mem_append_left _ hl)) ⟨rfl, rfl⟩ ⟨0, 0, rfl⟩
  rw [Nat.zero_add] at hlands
  cases hexec : c.exec s fuel (m.entered s) with
  | ok e m' =>
    rw [hexec] at hlands
    obtain rfl := h.ends fuel _ e m' hexec
    obtain ⟨-, k, shell, hend, hreach⟩ := hlands
    obtain ⟨shell', hlast⟩ := h.suspends hend
    have hends := ends_run htoken h.locals (ends_runLoop hreach hlast)
    exact ⟨rfl, { m'.inside shell' with status := .suspended }, rfl, rfl, hends⟩
  | error e m' =>
    rw [hexec] at hlands
    cases e with
    | failure f =>
      rcases hlands with ⟨k, m₁, shell, hreach, -, hhalts⟩ | ⟨hfuel, -⟩
      · have hends := ends_run htoken h.locals (ends_runLoop hreach (runLoop_halts hhalts))
        exact ⟨f.addTrace _, { m'.inside shell with status := .aborted, frames := [], stack := #[] }, rfl, rfl, rfl,
          hends⟩
      · cases hfuel
    | outOfFuel =>
      rcases hlands with ⟨k, m₁, shell, hreach, -, hhalts⟩ | ⟨-, k, m₁, hk, hreach⟩
      · obtain ⟨k, hends⟩ := ends_run htoken h.locals (ends_runLoop hreach (runLoop_stops hhalts))
        rcases hends fuel with ⟨-, hrun⟩ | ⟨-, hrun⟩
        · exact hrun
        · exact ⟨_, hrun⟩
      · obtain ⟨m2, hrun⟩ := runLoop_outOfFuel hreach hk
        refine ⟨m2, ?_⟩
        rw [run_eq htoken h.locals, hrun]
        rfl

/-- What a run does, given the outcome of the interpreter. -/
def Machine.RunsLike {slots : Nat} (s : Setting) (fuel : Nat) (m : Machine) :
    EStateM.Result Stop (World slots) Exit → Prop
  | .ok e w => e = .next ∧ ∃ m₁, m₁.globals = w.globals.toArray ∧ m₁.heap = w.heap ∧
    Ends (fun n => run s n m) (.ok .undefined m₁)
  | .error (.fault f) w => ∃ g m₁, g.cause = f ∧ m₁.globals = w.globals.toArray ∧ m₁.heap = w.heap ∧
    Ends (fun n => run s n m) (.error (.failure g) m₁)
  | .error .outOfFuel _ => ∃ m₁, m.run s fuel = .error .outOfFuel m₁

theorem Exec.Ends.exists {x : Nat → EStateM.Result Halt Machine α} {r : EStateM.Result Halt Machine α} (h : Ends x r) :
    ∃ fuel, x fuel = r := by
  obtain ⟨k, hk⟩ := h
  rcases hk (k + 1) with ⟨hle, -⟩ | ⟨-, hr⟩
  · exact absurd hle (Nat.not_succ_le_self k)
  · exact ⟨k + 1, hr⟩

/-- A run that finds room on the stack does what the interpreter does. -/
theorem Machine.RunsAs.like {r : EStateM.Result Halt Machine Exit} {x : EStateM.Result Stop (World slots) Exit}
    (hruns : m.RunsAs s fuel r) (hagrees : Agrees (m.entered s) (fun e => (e, [])) r x)
    (hstack : ∀ n f m', m.run s n = .error (.failure f) m' → f.cause ≠ .stackOverflow) : m.RunsLike s fuel x := by
  have hroom : ¬(True ∧ Overflows r) := by
    rintro ⟨-, m', rfl⟩
    obtain ⟨g, m₁, hcause, -, -, hends⟩ := hruns
    obtain ⟨n, hrun⟩ := hends.exists
    exact hstack n g m₁ hrun hcause
  cases x with
  | ok e w =>
    obtain rfl := hagrees.resolve_right hroom
    exact hruns
  | error stop w =>
    cases stop with
    | fault f =>
      obtain ⟨_, m', rfl, rfl, hglobals, hheap⟩ := hagrees.resolve_right hroom
      obtain ⟨g, m₁, hcause, hglobals', hheap', hends⟩ := hruns
      exact ⟨g, m₁, hcause, hglobals'.trans hglobals, hheap'.trans hheap, hends⟩
    | outOfFuel =>
      obtain ⟨_, m', rfl, rfl⟩ := hagrees.resolve_right hroom
      exact hruns

theorem Exec.Ends.at {x : Nat → EStateM.Result Halt Machine α} {r : EStateM.Result Halt Machine α} (h : Ends x r)
    (fuel : Nat) : (∃ m, x fuel = .error .outOfFuel m) ∨ x fuel = r := by
  obtain ⟨k, hk⟩ := h
  exact (hk fuel).imp And.right And.right

/-- A run that has fuel enough gives what the runs end with. -/
theorem Exec.Ends.unique {x : Nat → EStateM.Result Halt Machine α} {r r' : EStateM.Result Halt Machine α}
    (h : Ends x r) (hrun : x fuel = r') (henough : ∀ m, r' ≠ .error .outOfFuel m) : r' = r := by
  rcases h.at fuel with ⟨m, hfuel⟩ | hend
  · exact absurd (hrun.symm.trans hfuel) (henough m)
  · exact hrun.symm.trans hend

theorem Machine.RunsLike.of_ok {x : EStateM.Result Stop (World slots) Exit} {v : Value} (h : m.RunsLike s fuel x)
    (hrun : m.run s fuel = .ok v m') : ∃ w, x = .ok .next w ∧ m'.globals = w.globals.toArray ∧ m'.heap = w.heap := by
  cases x with
  | ok e w =>
    obtain ⟨rfl, m₁, hglobals, hheap, hends⟩ := h
    cases hends.unique hrun (by simp)
    exact ⟨w, rfl, hglobals, hheap⟩
  | error stop w =>
    cases stop with
    | fault f =>
      obtain ⟨g, m₁, -, -, -, hends⟩ := h
      cases hends.unique hrun (by simp)
    | outOfFuel =>
      obtain ⟨m₁, hfuel⟩ := h
      cases hrun.symm.trans hfuel

theorem Machine.RunsLike.of_failure {x : EStateM.Result Stop (World slots) Exit} {f : Failure}
    (h : m.RunsLike s fuel x) (hrun : m.run s fuel = .error (.failure f) m') :
    ∃ w, x = .error (.fault f.cause) w ∧ m'.globals = w.globals.toArray ∧ m'.heap = w.heap := by
  cases x with
  | ok e w =>
    obtain ⟨-, m₁, -, -, hends⟩ := h
    cases hends.unique hrun (by simp)
  | error stop w =>
    cases stop with
    | fault f =>
      obtain ⟨g, m₁, rfl, hglobals, hheap, hends⟩ := h
      cases hends.unique hrun (by simp)
      exact ⟨w, rfl, hglobals, hheap⟩
    | outOfFuel =>
      obtain ⟨m₁, hfuel⟩ := h
      cases hrun.symm.trans hfuel

theorem World.eq_of_toArray {w w' : World slots} (hglobals : w.globals.toArray = w'.globals.toArray)
    (hheap : w.heap = w'.heap) : w = w' := by
  obtain ⟨globals, heap⟩ := w
  obtain ⟨globals', heap'⟩ := w'
  obtain rfl : globals = globals' := Vector.toArray_inj.1 hglobals
  obtain rfl : heap = heap' := hheap
  rfl

end Run

/-! ### Programs -/

section Programs

variable {o : CompileOptions} {files : FileSet} {symbols : SymbolTable} {file : File} {h : Heap} {p : Program}
  {σ : Stage}

theorem Code.laidOut_toProgram (huses : c.All (Opcode.Uses σ.constants.size)) (hliterals : AllLiteral σ.constants) :
    (c.toProgram files σ).LaidOut where
  main := ⟨c.ending, rfl, huses, Opcode.uses_nothing rfl⟩
  constants i v hv := by
    have hliteral := hliterals i v hv
    cases v with
    | function f => exact hliteral.elim
    | _ => trivial

/-- With equal constants merged or not, the main code is the same up to the numbers of constants. -/
theorem Setting.main_of_toProgram (hdraws : c.All (Opcode.Draws 0 σ.constants.size)) (hstays : c.Stays)
    (hliterals : AllLiteral σ.constants)
    (hprogram : s.program = if o.mergeConstants then (c.toProgram files σ).dedup h else c.toProgram files σ)
    (hsmall : s.program.main.code.size < capacity 4) :
    ∃ d, s.Main d ∧ ∀ fuel, d.exec s fuel = c.exec { s with program := c.toProgram files σ } fuel := by
  have hsize : ∀ d : Code, (bytesOf (d.lines 0 0 0)).toArray.size = d.size := fun d => by simp
  have hbasic := hdraws.imp fun _ _ hop => hop.1
  have huses := hdraws.imp fun _ _ hop => hop.2
  split at hprogram
  · have hmerges := Program.dedup_merges (p := c.toProgram files σ) (Code.laidOut_toProgram huses hliterals) h
    rw [← hprogram] at hmerges
    generalize (c.toProgram files σ).numbering h = ρ at hmerges
    have hcode : s.program.main.code = (bytesOf (((c.renumber ρ).ending).lines 0 0 0)).toArray :=
      hmerges.main.code c.ending rfl ⟨huses, Opcode.uses_nothing rfl⟩
    have hsame : ∀ i < σ.constants.size, ∃ v, s.program.constants[ρ i]? = some v ∧
        σ.constants[i]? = some v := by
      intro i hi
      have hv := Array.getElem?_eq_getElem hi
      have hliteral := hliterals i _ hv
      obtain ⟨w, u, hu, hrenumbered, halike⟩ := hmerges.found i _ hv
      have hw : w = σ.constants[i] := by
        generalize σ.constants[i] = v at hliteral hrenumbered
        cases v with
        | function f => exact hliteral.elim
        | _ => exact hrenumbered
      rw [hw] at halike
      obtain rfl := halike.eq_of_isLiteral hliteral
      exact ⟨_, hu, hv⟩
    have hkept : c.All (Opcode.Kept (c.toProgram files σ) s.program ρ) := huses.imp fun op operands huses hop => by
      obtain ⟨k, rest, heq, hlt, -⟩ := huses hop
      obtain ⟨v, hnew, hold⟩ := hsame k hlt
      exact ⟨k, rest, v, heq, hnew, hold⟩
    have hexec := Code.exec_renumber (s := { s with program := c.toProgram files σ })
      (hbasic.imp fun _ _ hop => hop.steady) hkept
    refine ⟨c.renumber ρ, ⟨?_, hcode, ?_, fun fuel => ?_, ?_⟩, hexec⟩
    · rw [hmerges.main.rest]
      rfl
    · refine hdraws.renumber fun op operands hboth => hboth.1.renumber fun k rest hop hk => ?_
      obtain ⟨k', rest', heq, hlt, hwide⟩ := hboth.2 hop
      cases hk.symm.trans heq
      exact Nat.le_trans (hmerges.small k hlt) hwide
    · rw [hexec fuel]
      exact hstays.endsHere _ fuel
    · rwa [hcode, hsize] at hsmall
  · refine ⟨c, ⟨?_, ?_, hbasic, hstays.endsHere s, ?_⟩, fun fuel => ?_⟩
    · rw [hprogram]
      rfl
    · rw [hprogram]
      rfl
    · rw [hprogram] at hsmall
      exact hsize c.ending ▸ hsmall
    · rw [← hprogram]

/-- Every run of the compiled program does what the interpreter does with as much fuel. -/
theorem Machine.runsLike_of_compile (hok : (compile o files symbols file h).result = .ok p)
    (hstructured : Stmt.allStructured file.stmts = true) (hready : symbols.Ready) (hprogram : s.program = p)
    (hsmall : p.main.code.size < capacity 4) (hfree : s.limits.maxAllocs = -1) (htoken : m.token.check = .ok ())
    (hslots : (compile o files symbols file h).symbols.slots SymbolTable.root ≤ m.globals.size)
    (hstack : ∀ fuel f m', m.run s fuel = .error (.failure f) m' → f.cause ≠ .stackOverflow) (fuel : Nat) :
    m.RunsLike s fuel (Stmt.execAll s.limits fuel symbols.env file.stmts m.world) := by
  obtain ⟨c, σ, hlowers, hsymbols, -, hp⟩ := lowers_of_compile hok
  have hsees := hready.sees h.functions
  have hafter := hlowers.emits rfl hstructured hsees
  rw [hp] at hprogram
  obtain ⟨d, hmain, hexec⟩ := Setting.main_of_toProgram hafter.draws (hafter.stays rfl)
    (hafter.literals fun i v hv => by simp [Stage.initial] at hv) hprogram (by rw [hprogram, ← hp]; exact hsmall)
  have hprovides : ({ s with program := c.toProgram files σ }).Provides m.globals.size σ.constants
      (Stmt.afterAll symbols.env file.stmts).next := by
    refine ⟨KeptIn.refl _, Nat.le_trans hafter.sees.peak ?_⟩
    rw [← hsymbols]
    exact hslots
  have hagrees : Agrees (m.entered s) (fun e => (e, []))
      (c.exec { s with program := c.toProgram files σ } fuel ((m.entered s).holding m.world []))
      (Stmt.execAll s.limits fuel symbols.env file.stmts m.world) :=
    hlowers.agrees rfl hstructured hfree hsees hprovides m.world []
  rw [← hexec] at hagrees
  exact (hmain.runsAs htoken).like hagrees hstack

/-- Compiler correctness for programs without functions: such a program, run with room on the stack,
with any number of allocations and undisturbed, ends as the interpreter of its syntax tree ends, with
the same variables and the same heap. -/
theorem run_iff_execAll (hok : (compile o files symbols file h).result = .ok p)
    (hstructured : Stmt.allStructured file.stmts = true) (hready : symbols.Ready) (hprogram : s.program = p)
    (hsmall : p.main.code.size < capacity 4) (hfree : s.limits.maxAllocs = -1) {m : Machine}
    (htoken : m.token.check = .ok ())
    (hslots : (compile o files symbols file h).symbols.slots SymbolTable.root ≤ m.globals.size)
    (hstack : ∀ fuel f m', m.run s fuel = .error (.failure f) m' → f.cause ≠ .stackOverflow) :
    (∀ w, (∃ fuel, Stmt.execAll s.limits fuel symbols.env file.stmts m.world = .ok .next w) ↔
      ∃ fuel m', m.run s fuel = .ok .undefined m' ∧ m'.globals = w.globals.toArray ∧ m'.heap = w.heap) ∧
    ∀ e w, (∃ fuel, Stmt.execAll s.limits fuel symbols.env file.stmts m.world = .error (.fault e) w) ↔
      ∃ fuel f m', m.run s fuel = .error (.failure f) m' ∧ f.cause = e ∧ m'.globals = w.globals.toArray ∧
        m'.heap = w.heap := by
  have hruns := runsLike_of_compile hok hstructured hready hprogram hsmall hfree htoken hslots hstack
  refine ⟨fun w => ⟨?_, ?_⟩, fun e w => ⟨?_, ?_⟩⟩
  · rintro ⟨fuel, hexec⟩
    have hlike := hruns fuel
    rw [hexec] at hlike
    obtain ⟨-, m₁, hglobals, hheap, hends⟩ := hlike
    obtain ⟨n, hrun⟩ := hends.exists
    exact ⟨n, m₁, hrun, hglobals, hheap⟩
  · rintro ⟨fuel, m', hrun, hglobals, hheap⟩
    obtain ⟨w', hexec, hglobals', hheap'⟩ := (hruns fuel).of_ok hrun
    obtain rfl := World.eq_of_toArray (hglobals.symm.trans hglobals') (hheap.symm.trans hheap')
    exact ⟨fuel, hexec⟩
  · rintro ⟨fuel, hexec⟩
    have hlike := hruns fuel
    rw [hexec] at hlike
    obtain ⟨g, m₁, hcause, hglobals, hheap, hends⟩ := hlike
    obtain ⟨n, hrun⟩ := hends.exists
    exact ⟨n, g, m₁, hrun, hcause, hglobals, hheap⟩
  · rintro ⟨fuel, f, m', hrun, rfl, hglobals, hheap⟩
    obtain ⟨w', hexec, hglobals', hheap'⟩ := (hruns fuel).of_failure hrun
    obtain rfl := World.eq_of_toArray (hglobals.symm.trans hglobals') (hheap.symm.trans hheap')
    exact ⟨fuel, hexec⟩

/-! ### A program that counts -/

/-- `n := 0; for i := 0; i < 3; i++ { if i == 1 { continue }; n += i }`. -/
def File.counting : File where
  name := "main"
  stmts :=
    [.assignOf (.name "n") .define (.int Pos.unknown 0),
     .loopOf (some (.assignOf (.name "i") .define (.int Pos.unknown 0)))
       (some (.binaryOf (.name "i") (.arith .less) (.int Pos.unknown 3)))
       (some (.incDecOf (.name "i") true))
       [.ifOf none (.binaryOf (.name "i") .equal (.int Pos.unknown 1)) [.continueLoop Pos.unknown] none,
        .assignOf (.name "n") (.combine .add) (.name "i")]]

/-- Whether the interpreter came to the end of a program. -/
def World.isFinished {slots : Nat} : EStateM.Result Stop (World slots) Exit → Bool
  | .ok .next _ => true
  | _ => false

/-- Where the program runs that counts. -/
def Setting.counting : Setting := { program := (compile {} {} .withBuiltins .counting {}).program }

/-- A machine with room for two variables. -/
def Machine.counting : Machine := { globals := #[.undefined, .undefined] }

theorem run_iff_execAll_counting :
    ∃ w, Stmt.execAll {} 4 SymbolTable.withBuiltins.env File.counting.stmts counting.world = .ok .next w ∧
      ∃ fuel m', counting.run .counting fuel = .ok .undefined m' ∧ m'.globals = w.globals.toArray ∧
        m'.heap = w.heap := by
  have hok : (compile {} {} .withBuiltins .counting {}).result = .ok Setting.counting.program :=
    Compilation.result_eq (by decide +kernel)
  have hstack : ∀ fuel f m', counting.run .counting fuel = .error (.failure f) m' →
      f.cause ≠ .stackOverflow := by
    intro fuel f m' hfail
    have hrun : isOk (counting.run .counting 200) = true := by decide +kernel
    obtain ⟨v, m₁, hend⟩ := exists_of_isOk hrun
    have hsame := Configuration.run_eq_run (by rw [hfail]; trivial) (by rw [hend]; trivial)
    cases hfail.symm.trans (hsame.trans hend)
  obtain ⟨hends, -⟩ := run_iff_execAll (s := .counting) (m := .counting) hok (by decide +kernel)
    (SymbolTable.housed_withBuiltins.ready (by decide +kernel) (by decide +kernel) (by decide +kernel)) rfl
    (by decide +kernel) rfl rfl (by decide +kernel) hstack
  have hexec : ∃ w, Stmt.execAll {} 4 SymbolTable.withBuiltins.env File.counting.stmts counting.world =
      .ok .next w := by
    have hnext : World.isFinished (Stmt.execAll {} 4 SymbolTable.withBuiltins.env File.counting.stmts
        counting.world) = true := by decide +kernel
    rw [World.isFinished.eq_def] at hnext
    split at hnext
    · next w hw => exact ⟨w, hw⟩
    · cases hnext
  obtain ⟨w, hw⟩ := hexec
  exact ⟨w, hw, (hends w).1 ⟨4, hw⟩⟩

end Programs

end ScriptEngine
