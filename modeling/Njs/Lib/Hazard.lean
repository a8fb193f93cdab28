import Mathlib.Logic.Basic

/-!
# Outcomes up to a hazard

A computation keeps to its specification unless a hazard is present. Where it is, the
computation may also end with one error.
-/

namespace Njs.Lib

variable {ε α β : Type} {hazard : Prop} {e : ε}

/-- The outcome is a value with the property `P`, or the hazard is present and the outcome is
the error `e`. -/
def Unless (hazard : Prop) (e : ε) (x : Except ε α) (P : α → Prop) : Prop :=
  (∃ a, x = .ok a ∧ P a) ∨ hazard ∧ x = .error e

theorem Unless.ok {P : α → Prop} {a : α} (ha : P a) : Unless hazard e (.ok a) P :=
  Or.inl ⟨a, rfl, ha⟩

theorem Unless.error {P : α → Prop} (h : hazard) : Unless hazard e (.error e) P :=
  Or.inr ⟨h, rfl⟩

theorem Unless.of_ok {P : α → Prop} {x : Except ε α} {a : α} (hx : x = .ok a) (ha : P a) :
    Unless hazard e x P :=
  Or.inl ⟨a, hx, ha⟩

theorem Unless.bind {P : α → Prop} {Q : β → Prop} {x : Except ε α} {f : α → Except ε β}
    (h : Unless hazard e x P) (hf : ∀ a, P a → Unless hazard e (f a) Q) :
    Unless hazard e (x >>= f) Q := by
  rcases h with ⟨a, rfl, ha⟩ | ⟨hz, rfl⟩
  · exact hf a ha
  · exact Or.inr ⟨hz, rfl⟩

theorem Unless.mono {P Q : α → Prop} {x : Except ε α} (h : Unless hazard e x P)
    (himp : ∀ a, P a → Q a) : Unless hazard e x Q := by
  rcases h with ⟨a, hx, ha⟩ | h
  · exact Or.inl ⟨a, hx, himp a ha⟩
  · exact Or.inr h

theorem Unless.weaken {hazard' : Prop} {P : α → Prop} {x : Except ε α} (h : Unless hazard e x P)
    (himp : hazard → hazard') : Unless hazard' e x P :=
  Or.imp_right (And.imp_left himp) h

/-- Without the hazard there is a value. -/
theorem Unless.exists_ok {P : α → Prop} {x : Except ε α} (h : Unless hazard e x P)
    (hsafe : ¬hazard) : ∃ a, x = .ok a ∧ P a :=
  h.resolve_right fun hz => hsafe hz.1

/-- The value that there is has the property. -/
theorem Unless.of_eq {P : α → Prop} {x : Except ε α} {a : α} (h : Unless hazard e x P)
    (hx : x = .ok a) : P a := by
  rcases h with ⟨b, hb, hP⟩ | ⟨-, hb⟩
  · rw [hx] at hb
    exact Except.ok.inj hb ▸ hP
  · rw [hx] at hb
    cases hb

end Njs.Lib
