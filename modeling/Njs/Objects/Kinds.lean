import Njs.Objects.Agreement

/-!
# Kinds of properties

A property is an accessor or has a value. Assignments to a property that was deleted take its
record up again, with the functions that it had as an accessor.
-/

namespace Njs.Objects

variable {env : Env} {key : PropertyKey} {o o' : Object} {chain protos : List Object}
  {setval : Value} {name : Name} {prop : Property} {step : ChainStep}

/-- The property has functions, no value and no attribute for writing. -/
structure Property.AccessorOnly (prop : Property) : Prop where
  functions : prop.getter.isSome = true ∨ prop.setter.isSome = true
  value : prop.value = none
  writable : prop.writable = .unset

/-- The property has a value and no functions. -/
structure Property.DataOnly (prop : Property) : Prop where
  value : prop.value.isSome = true
  getter : prop.getter = none
  setter : prop.setter = none

/-- The property is of one kind. -/
def Property.OneKind (prop : Property) : Prop := prop.AccessorOnly ∨ prop.DataOnly

/-- The own properties of the first object of the chain are of one kind each. -/
def OneKindEach (chain : List Object) : Prop :=
  ∀ o ∈ chain.head?, ∀ name, ∀ prop ∈ o.find name, prop.OneKind

/-- The property that an operation makes where there was none. -/
inductive Created : Op → Property → Prop
  | set (key : PropertyKey) (v : Value) : Created (.set key v) (objectPropAlloc (some v) .yes)
  | define (reading : Reading) (key : PropertyKey) (desc : List Object) (d : Property)
    (hd : descriptorProp reading desc (objectPropAlloc none .unset) = .ok d) :
    Created (.define reading (.ok key) (some desc)) (completed d)

/-- A property that the step makes is as if there had never been one of its name. -/
def LeavesNoTrace (step : ChainStep) (chain : List Object) : Prop :=
  ∀ o ∈ chain.head?, ∀ o' ∈ (step.apply chain).head?, ∀ name, o.find name = none →
    ∀ prop ∈ o'.find name, Created step.op prop

/-- In every state of the run the properties are of one kind, and no step leaves a trace. -/
def KeepsKinds : List Object → List ChainStep → Prop
  | chain, [] => OneKindEach chain
  | chain, step :: steps =>
    OneKindEach chain ∧ LeavesNoTrace step chain ∧ KeepsKinds (step.apply chain) steps

theorem Object.find_eq_some : o.find name = some prop ↔
    o.current name = some prop ∧ prop.type ≠ .whiteout := by
  rw [o.find_eq]
  cases o.current name with
  | none => exact ⟨nofun, fun h => nomatch h.1⟩
  | some entry =>
    simp only
    split_ifs with hwhite
    · refine ⟨nofun, ?_⟩
      rintro ⟨⟨⟩, hlive⟩
      exact absurd hwhite hlive
    · refine ⟨?_, And.left⟩
      rintro ⟨⟩
      exact ⟨rfl, hwhite⟩

theorem Object.find_eq_none (h : o.current name = some prop) (hfind : o.find name = none) :
    prop.type = .whiteout := by
  by_contra hlive
  rw [Object.find_eq_some.mpr ⟨h, hlive⟩] at hfind
  cases hfind

theorem Property.OneKind.data (h : prop.OneKind) (hdata : prop.isData = true) :
    prop.DataOnly := by
  rcases h with h | h
  · unfold Property.isData at hdata
    rw [h.value, h.writable] at hdata
    cases hdata
  · exact h

theorem Object.Simple.deleted (h : o.Simple) (hcurrent : o.current key.name = some prop)
    (hwhite : prop.type = .whiteout) : o.Deleted key prop := by
  have hkey : o.isElement key = false := by
    simp only [Object.isElement, h.type]
  have hlookup := Object.hash_of_whiteout hcurrent hwhite
  refine ⟨hkey, ?_, hlookup, hwhite⟩
  rw [Object.owns_of_find hkey (fun value i htype => by rw [h.type] at htype; cases htype) rfl,
    find_none_of_whiteout hlookup hwhite]
  rfl

theorem KeepsKinds.first {steps : List ChainStep} (h : KeepsKinds chain steps) :
    OneKindEach chain := by
  cases steps with
  | nil => exact h
  | cons step steps => exact h.1

theorem KeepsKinds.last {steps : List ChainStep} (h : KeepsKinds chain steps) :
    OneKindEach (runSteps chain steps) := by
  induction steps generalizing chain with
  | nil => exact h
  | cons step steps ih => exact ih h.2.2

end Njs.Objects
