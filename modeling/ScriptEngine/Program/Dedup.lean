import ScriptEngine.Program
/-!
# Merging equal constants

Constants that cannot be told apart get one number, the smallest, and code is renumbered. Integers,
floats, characters and texts are compared by value, modules by name, and functions by their code
after renumbering together with all that is known about them. A function may refer to constants that
are numbered later; it is not merged, and its code is renumbered at the end. All other constants
keep a number of their own.
-/

namespace ScriptEngine

/-- What decides whether two constants are merged. -/
inductive ConstantKey where
  | int (v : Int64)
  | float (bits : UInt64)
  | char (c : Char)
  | text (s : String)
  | module (name : String)
  | function (code : List UInt8) (locals parameters : Nat) (variadic : Bool) (positions : PositionTable)
  deriving DecidableEq

namespace Dedup

/-- The new numbers of the constants so far, out of a total. -/
structure Renumbering where
  total : Nat
  assigned : Array Nat := #[]

/-- An instruction with the new number of its constant; none if there is not one yet. A number
beyond the total is left alone. -/
def Renumbering.instruction (r : Renumbering) (i : Instruction) : Option Instruction :=
  if i.op.takesConstant then
    match r.assigned[i.first]? with
    | some new => some { i with operands := new :: i.operands.tail }
    | none => if i.first < r.total then none else some i
  else some i

/-- A code with new numbers; none if it cannot be read to its end or needs a number not yet there. -/
def Renumbering.code (r : Renumbering) (code : Array UInt8) : Option (List UInt8) :=
  let w := walk code
  if w.fault.isSome then none
  else (w.instructions.toList.mapM r.instruction).map fun is =>
    is.flatMap fun i => Instruction.encode i.op i.operands

/-- A function with new numbers in its code, if they are all there. -/
def Renumbering.function (r : Renumbering) (f : Function) : Option Function :=
  (r.code f.code).map fun code => { f with code := code.toArray }

/-- The constants kept so far, under which key each is found, and the functions to be renumbered at
the end. -/
structure Pool where
  constants : Array Value := #[]
  keys : List (ConstantKey × Nat) := []
  deferred : List Nat := []

namespace Pool

def add (p : Pool) (c : Value) : Nat × Pool :=
  (p.constants.size, { p with constants := p.constants.push c })

/-- The number of the constant with a key; the constant is added if there is none. -/
def merge (p : Pool) (key : ConstantKey) (c : Value) : Nat × Pool :=
  match p.keys.find? (·.1 = key) with
  | some (_, number) => (number, p)
  | none =>
    let (number, p) := p.add c
    (number, { p with keys := (key, number) :: p.keys })

/-- Adds a function that refers to constants without a number yet. -/
def defer (p : Pool) (c : Value) : Nat × Pool :=
  let (number, p) := p.add c
  (number, { p with deferred := number :: p.deferred })

def take (h : Heap) (r : Renumbering) (p : Pool) (c : Value) : Nat × Pool :=
  match c with
  | .int v => p.merge (.int v) c
  | .float v => p.merge (.float v.toBits) c
  | .char v => p.merge (.char v) c
  | .string s => p.merge (.text s) c
  | .frozenMap _ =>
    match c.moduleName? h with
    | some name => p.merge (.module name) c
    | none => p.add c
  | .function f =>
    match r.code f.code with
    | some code =>
      p.merge (.function code f.locals f.parameters f.variadic f.positions)
        (.function { f with code := code.toArray })
    | none => p.defer c
  | c => p.add c

end Pool

def takeAll (h : Heap) : List Value → Renumbering → Pool → Renumbering × Pool
  | [], r, p => (r, p)
  | c :: rest, r, p =>
    let (number, p) := p.take h r c
    takeAll h rest { r with assigned := r.assigned.push number } p

/-- Renumbers a constant if it is a function whose code can be renumbered. -/
def Renumbering.constant (r : Renumbering) : Value → Value
  | .function f => .function ((r.function f).getD f)
  | c => c

end Dedup

/-- The program with equal constants merged. -/
def Program.dedup (p : Program) (h : Heap) : Program :=
  let (r, pool) := Dedup.takeAll h p.constants.toList { total := p.constants.size } {}
  { p with
    main := (r.function p.main).getD p.main
    constants := pool.deferred.foldl (fun cs i => cs.modify i r.constant) pool.constants }

end ScriptEngine
