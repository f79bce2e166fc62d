import ScriptEngine.Proofs.Value.Duplicates
/-!
# Copies share as their originals do

An access path leads from a value to a part of it. Arrays and maps that two paths lead to are one in a value
iff they are one in its copy (`Value.copy_shares`), through cycles and whether they are frozen or not. Bytes are
copied each time they are met: those that are one in the copy are one in the original, but not the other way
round (`Value.copy_splits_bytes`).
-/

namespace ScriptEngine

/-- A step from a value to a part of it. -/
inductive Access where
  | item (i : Nat)
  | entry (key : String)
  | content

namespace Value

/-- The part that a step leads to, if there is one. -/
def step? (h : Heap) : Value → Access → Option Value
  | .array a, .item i | .frozenArray a, .item i => (h.array a)[i]?
  | .map a, .entry key | .frozenMap a, .entry key => (h.map a).find? key
  | .error v, .content => some v
  | _, _ => none

/-- The part that a path leads to, if there is one. -/
def follow (h : Heap) (v : Value) (path : List Access) : Option Value := path.foldlM (step? h) v

/-- Two paths lead to one array or map, frozen or not. -/
def Meet (h : Heap) (v : Value) (p q : List Access) : Prop :=
  ∃ c, (v.follow h p).bind container? = some c ∧ (v.follow h q).bind container? = some c

/-- Two paths lead to the same bytes. -/
def MeetBytes (h : Heap) (v : Value) (p q : List Access) : Prop :=
  ∃ a, v.follow h p = some (.bytes a) ∧ v.follow h q = some (.bytes a)

end Value

namespace Copy

variable {source h : Heap} {ρ : Record} {v w : Value}

/-- The container that a copy is belongs to the container that the original is. -/
theorem IsCopy.container? (hvw : IsCopy ρ v w) : (v.container? = none ∧ w.container? = none) ∨
    ∃ c b, (c, b) ∈ ρ.containers ∧ v.container? = some c ∧ w.container? = some (c.atPlace b) := by
  cases hvw with
  | atom hv =>
    left
    cases v <;> first | exact ⟨rfl, rfl⟩ | exact hv.elim
  | bytes | iterator | error => exact .inl ⟨rfl, rfl⟩
  | @container _ c b hv hb => exact .inr ⟨c, b, hb, hv, by cases c <;> rfl⟩

theorem IsCopy.of_bytes {b : Addr} (hv : IsCopy ρ v (.bytes b)) : ∃ a, v = .bytes a ∧ (a, b) ∈ ρ.bytes := by
  generalize hw : Value.bytes b = w at hv
  cases hv with
  | atom hv =>
    subst hw
    exact hv.elim
  | bytes hb =>
    cases hw
    exact ⟨_, rfl, hb⟩
  | @container _ c b => cases c <;> cases hw
  | _ => cases hw

variable (hf : Faithful source ρ (fun _ => False) h)
include hf

variable (hvw : IsCopy ρ v w)
include hvw

/-- A step from a value is a step from its copy. -/
theorem Faithful.step? (s : Access) : Option.Rel (IsCopy ρ) (v.step? source s) (w.step? h s) := by
  cases hvw with
  | atom hv => cases v <;> first | exact .none | exact hv.elim
  | bytes | iterator => exact .none
  | error hvw =>
    cases s with
    | content => exact .some hvw
    | _ => exact .none
  | @container _ c b hv hb =>
    have hfilled := hf.filled c b hb id
    cases v <;> cases hv <;> cases s <;>
      first
      | exact .none
      | exact Pointwise.getElem? hfilled _
      | exact Dict.Pointwise.find? hfilled _

theorem Faithful.follow (path : List Access) : Option.Rel (IsCopy ρ) (v.follow source path) (w.follow h path) := by
  induction path generalizing v w with
  | nil => exact .some hvw
  | cons s path ih =>
    have hstep := hf.step? hvw s
    rw [Value.follow, Value.follow, List.foldlM_cons, List.foldlM_cons]
    generalize v.step? source s = v', w.step? h s = w' at hstep
    cases hstep with
    | none => exact .none
    | some hvw' => exact ih hvw'

/-- A path leads to a container in the original iff it leads to its copy. -/
theorem Faithful.container?_follow
    (path : List Access) :
    ((v.follow source path).bind Value.container? = none ∧ (w.follow h path).bind Value.container? = none) ∨
    ∃ c b, (c, b) ∈ ρ.containers ∧ (v.follow source path).bind Value.container? = some c ∧
      (w.follow h path).bind Value.container? = some (c.atPlace b) := by
  have hrel := hf.follow hvw path
  generalize v.follow source path = v', w.follow h path = w' at hrel
  cases hrel with
  | none => exact .inl ⟨rfl, rfl⟩
  | some hvw' => exact hvw'.container?

theorem Faithful.meet_iff (p q : List Access) : v.Meet source p q ↔ w.Meet h p q := by
  rcases hf.container?_follow hvw p with ⟨hp, hp'⟩ | ⟨c, b, hb, hp, hp'⟩
  · simp [Value.Meet, hp, hp']
  rcases hf.container?_follow hvw q with ⟨hq, hq'⟩ | ⟨d, b', hb', hq, hq'⟩
  · simp [Value.Meet, hq, hq']
  simp only [Value.Meet, hp, hp', hq, hq', Option.some.injEq, exists_eq_left']
  constructor
  · rintro rfl
    rw [hf.once d b b' hb hb']
  · exact fun heq => (hf.apart d c b' b hb' hb heq)

/-- A path leads to bytes in the original iff it leads to a copy of them. -/
theorem Faithful.bytes_follow (path : List Access) :
    (∀ a, v.follow source path = some (.bytes a) → ∃ b, w.follow h path = some (.bytes b)) ∧
      ∀ b, w.follow h path = some (.bytes b) → ∃ a, (a, b) ∈ ρ.bytes ∧ v.follow source path = some (.bytes a) := by
  have hrel := hf.follow hvw path
  generalize v.follow source path = v', w.follow h path = w' at hrel
  cases hrel with
  | none => exact ⟨fun _ ha => (by cases ha), fun _ hb => (by cases hb)⟩
  | some hvw' =>
    constructor
    · rintro a ⟨⟩
      cases hvw' with
      | atom hv => exact hv.elim
      | bytes hb => exact ⟨_, rfl⟩
      | container hv => cases hv
    · rintro b ⟨⟩
      obtain ⟨a, rfl, hb⟩ := hvw'.of_bytes
      exact ⟨a, hb, rfl⟩

end Copy

/-- Two paths lead to one array or map in a value iff they do in its copy; bytes that are one in the copy are
one in the value. -/
theorem Value.copy_shares (h : Heap) (x : Value) : ∃ y h', x.copy h = .ok y h' ∧
    (∀ p q, x.Meet h p q ↔ y.Meet h' p q) ∧
    (∀ p, x.MeetBytes h p p ↔ y.MeetBytes h' p p) ∧ ∀ p q, y.MeetBytes h' p q → x.MeetBytes h p q := by
  obtain ⟨y, h', ρ, hcopy, hxy, hf⟩ := x.copy_faithful h
  refine ⟨y, h', hcopy, hf.meet_iff hxy, fun p => ⟨?_, ?_⟩, ?_⟩
  · rintro ⟨a, ha, -⟩
    obtain ⟨b, hb⟩ := (hf.bytes_follow hxy p).1 a ha
    exact ⟨b, hb, hb⟩
  · rintro ⟨b, hb, -⟩
    obtain ⟨a, -, ha⟩ := (hf.bytes_follow hxy p).2 b hb
    exact ⟨a, ha, ha⟩
  · rintro p q ⟨b, hp, hq⟩
    obtain ⟨a, hab, ha⟩ := (hf.bytes_follow hxy p).2 b hp
    obtain ⟨a', hab', ha'⟩ := (hf.bytes_follow hxy q).2 b hq
    obtain rfl := hf.apartBytes a a' b hab hab'
    exact ⟨a, ha, ha'⟩

/-- Bytes that stand twice in an array stand there as two in its copy. -/
theorem Value.copy_splits_bytes : let h : Heap := { buffers := #[#[97]], arrays := #[#[.bytes 0, .bytes 0]] }
    (Value.array 0).MeetBytes h [.item 0] [.item 1] ∧
      ∃ y h', (Value.array 0).copy h = .ok y h' ∧ ¬ y.MeetBytes h' [.item 0] [.item 1] := by
  refine ⟨⟨0, rfl, rfl⟩, .array 1,
    { buffers := #[#[97], #[97], #[97]], arrays := #[#[.bytes 0, .bytes 0], #[.bytes 1, .bytes 2]] }, rfl, ?_⟩
  rintro ⟨a, ha, ha'⟩
  cases ha
  cases ha'

end ScriptEngine
