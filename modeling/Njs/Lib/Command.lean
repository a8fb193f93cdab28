import Mathlib.Data.Nat.Basic

/-!
# Commands on a state

A command reads and changes a state and returns a value, or it has no defined
outcome at all. `Ends` is total correctness: the command has an outcome, and the
outcome satisfies a postcondition.
-/

namespace Njs.Lib

variable {σ β γ : Type}

/-- A command on states `σ`. Where it has no outcome, the program that it models does
something undefined. -/
abbrev Command (σ β : Type) : Type := StateT σ Option β

/-- The command without an outcome. -/
def fault : Command σ β := fun _ => none

/-- Started in `s`, the command returns a value and ends in a state for which `Q` holds. -/
def Ends (x : Command σ β) (s : σ) (Q : β → σ → Prop) : Prop :=
  ∃ b s', x s = some (b, s') ∧ Q b s'

theorem Ends.pure {b : β} {s : σ} {Q : β → σ → Prop} (h : Q b s) :
    Ends (Pure.pure b : Command σ β) s Q :=
  ⟨b, s, rfl, h⟩

theorem Ends.bind {x : Command σ β} {f : β → Command σ γ} {s : σ} {P : β → σ → Prop}
    {Q : γ → σ → Prop} (h : Ends x s P) (hf : ∀ b s', P b s' → Ends (f b) s' Q) :
    Ends (x >>= f) s Q := by
  obtain ⟨b, s', hx, hP⟩ := h
  obtain ⟨c, s'', hc, hQ⟩ := hf b s' hP
  refine ⟨c, s'', ?_, hQ⟩
  change (x s).bind (fun p => f p.1 p.2) = _
  rw [hx]
  exact hc

theorem Ends.mono {x : Command σ β} {s : σ} {P Q : β → σ → Prop} (h : Ends x s P)
    (himp : ∀ b s', P b s' → Q b s') : Ends x s Q := by
  obtain ⟨b, s', hx, hP⟩ := h
  exact ⟨b, s', hx, himp b s' hP⟩

/-- A value that may be missing, taken as a command that does not change the state. -/
def lift (x : Option β) : Command σ β := fun s => x.map (·, s)

theorem Ends.lift_bind {x : Option β} {b : β} {f : β → Command σ γ} {s : σ} {Q : γ → σ → Prop}
    (hx : x = some b) (h : Ends (f b) s Q) : Ends (lift x >>= f) s Q := by
  subst hx
  exact h

end Njs.Lib

/-!
## Commands that may throw

A throwing command returns a value or an exception, and the state that it leaves is
there in both cases. `Outcome` is total correctness with a postcondition for each.
-/

namespace Njs.Lib

variable {ε σ β γ : Type}

/-- A command on states `σ` that may throw an exception `ε`. -/
abbrev Throwing (ε σ β : Type) : Type := ExceptT ε (Command σ) β

/-- Started in `s`, the command returns a value and ends in a state for which `Q` holds,
or it throws and ends in a state for which `E` holds. -/
def Outcome (x : Throwing ε σ β) (s : σ) (Q : β → σ → Prop) (E : ε → σ → Prop) : Prop :=
  Ends x.run s fun r s' =>
    match r with
    | .ok b => Q b s'
    | .error e => E e s'

variable {x : Throwing ε σ β} {f : β → Throwing ε σ γ} {s s' : σ} {b : β} {e : ε}
  {P Q : β → σ → Prop} {R : γ → σ → Prop} {E F : ε → σ → Prop}

theorem Outcome.of_ok (hx : x.run s = some (.ok b, s')) (h : Q b s') : Outcome x s Q E :=
  ⟨.ok b, s', hx, h⟩

theorem Outcome.of_error (hx : x.run s = some (.error e, s')) (h : E e s') : Outcome x s Q E :=
  ⟨.error e, s', hx, h⟩

/-- A throwing command has one of its two outcomes. -/
theorem Outcome.cases (h : Outcome x s Q E) :
    (∃ b s', x.run s = some (.ok b, s') ∧ Q b s') ∨
      ∃ e s', x.run s = some (.error e, s') ∧ E e s' := by
  obtain ⟨r, s', hx, h⟩ := h
  rcases r with e | b
  · exact Or.inr ⟨e, s', hx, h⟩
  · exact Or.inl ⟨b, s', hx, h⟩

/-- A value that was returned has the property. -/
theorem Outcome.of_run_ok (h : Outcome x s Q E) (hx : x.run s = some (.ok b, s')) : Q b s' := by
  obtain ⟨r, t, hr, hpost⟩ := h
  rw [hx] at hr
  obtain ⟨rfl, rfl⟩ := Prod.mk.inj (Option.some.inj hr)
  exact hpost

theorem Outcome.pure (h : Q b s) : Outcome (Pure.pure b : Throwing ε σ β) s Q E :=
  .of_ok rfl h

theorem Outcome.throw (h : E e s) : Outcome (throw e : Throwing ε σ β) s Q E :=
  .of_error rfl h

theorem Outcome.bind (h : Outcome x s P E) (hf : ∀ b s', P b s' → Outcome (f b) s' R E) :
    Outcome (x >>= f) s R E := by
  refine Ends.bind h fun r s' hr => ?_
  cases r with
  | error e => exact Ends.pure hr
  | ok b => exact hf b s' hr

theorem Outcome.mono (h : Outcome x s P E) (hok : ∀ b s', P b s' → Q b s')
    (herr : ∀ e s', E e s' → F e s') : Outcome x s Q F := by
  refine Ends.mono h fun r s' hr => ?_
  cases r with
  | error e => exact herr e s' hr
  | ok b => exact hok b s' hr

/-- Commands that run alike have the same outcome. -/
theorem Outcome.congr {y : Throwing ε σ β} (hrun : x.run s = y.run s') (h : Outcome y s' Q E) :
    Outcome x s Q E := by
  unfold Outcome Ends
  rw [hrun]
  exact h

/-- The outcome of a sequence is that of its second part after the first. -/
theorem run_bind_ok (hx : x.run s = some (.ok b, s')) : (x >>= f).run s = (f b).run s' := by
  change (x.run s).bind (fun p => ExceptT.bindCont f p.1 p.2) = _
  rw [hx]
  rfl

/-- A sequence throws what its first part throws. -/
theorem run_bind_error (hx : x.run s = some (.error e, s')) :
    (x >>= f).run s = some (.error e, s') := by
  change (x.run s).bind (fun p => ExceptT.bindCont f p.1 p.2) = _
  rw [hx]
  rfl

/-- A sequence is undefined where its first part is. -/
theorem run_bind_none (hx : x.run s = none) : (x >>= f).run s = none := by
  change (x.run s).bind (fun p => ExceptT.bindCont f p.1 p.2) = _
  rw [hx]
  rfl

/-- A first part whose outcome is known. -/
theorem Outcome.bind_ok (hx : x.run s = some (.ok b, s')) (h : Outcome (f b) s' R E) :
    Outcome (x >>= f) s R E :=
  h.congr (run_bind_ok hx)

end Njs.Lib
