import ScriptEngine.Proofs.Compiler.Lowering
/-!
# Constants

A compilation only ever adds constants: literals of the source, compiled functions and modules that the
host provides (`Adds`). The number of a constant stands for the same value from then on (`KeptIn`).
-/

namespace ScriptEngine

variable {as bs cs : Array Value} {v : Value}

/-- Every constant has the same number among others. -/
def KeptIn (as bs : Array Value) : Prop := ∀ (i : Nat) v, as[i]? = some v → bs[i]? = some v

theorem KeptIn.refl (as : Array Value) : KeptIn as as := fun _ _ h => h

theorem KeptIn.ofEq (h : bs = as) : KeptIn as bs := h ▸ KeptIn.refl as

theorem KeptIn.trans (h : KeptIn as bs) (h' : KeptIn bs cs) : KeptIn as cs :=
  fun i v hv => h' i v (h i v hv)

theorem KeptIn.push (as : Array Value) (v : Value) : KeptIn as (as.push v) := by
  intro i u hu
  have hi := (Array.getElem?_eq_some_iff.1 hu).1
  rw [Array.getElem?_push, if_neg (Nat.ne_of_lt hi), hu]

/-- A constant has its number. -/
theorem KeptIn.last (h : KeptIn (as.push v) bs) : bs[as.size]? = some v := h _ _ (by simp)

theorem KeptIn.size_le (h : KeptIn as bs) : as.size ≤ bs.size := by
  rcases Nat.eq_zero_or_pos as.size with hzero | hpos
  · rw [hzero]
    exact Nat.zero_le _
  · have hlast : as.size - 1 < as.size := Nat.sub_lt hpos Nat.one_pos
    have hkept := h (as.size - 1) _ (Array.getElem?_eq_getElem hlast)
    have := (Array.getElem?_eq_some_iff.1 hkept).1
    omega

/-- Whether a value is what a literal stands for. -/
def Value.IsLiteral : Value → Prop
  | .int _ | .float _ | .char _ | .string _ => True
  | _ => False

theorem Expr.isLiteral_literal {e : Expr} {pos : Pos} (h : e.literal? = some (pos, v)) : v.IsLiteral := by
  cases e <;> cases h <;> trivial

/-- What a constant of a compiled program can be. -/
def Value.IsConstant (o : CompileOptions) (v : Value) : Prop :=
  v.IsLiteral ∨ (∃ f, v = .function f) ∨ ∃ name, o.modules.find? name = some (.native v)

/-- The constants among some others that are not there yet are what constants can be. -/
def Adds (o : CompileOptions) (as bs : Array Value) : Prop := ∀ v ∈ bs, v ∈ as ∨ v.IsConstant o

namespace Adds

variable {o : CompileOptions}

theorem refl (o : CompileOptions) (as : Array Value) : Adds o as as := fun _ hv => .inl hv

theorem trans (h : Adds o as bs) (h' : Adds o bs cs) : Adds o as cs := by
  intro v hv
  rcases h' v hv with hv | hv
  · exact h v hv
  · exact .inr hv

theorem push (hv : v.IsConstant o) : Adds o as (as.push v) := by
  intro w hw
  rcases Array.mem_push.1 hw with hw | rfl
  · exact .inl hw
  · exact .inr hv

end Adds

end ScriptEngine
