import Mathlib.Tactic.Common

/-!
# Commands that look at cells others may write

A watching command runs steps that may change the state, and looks at cells of the state
between them. It tracks a command that is given the first contents of the cells if it does the
same as that command whenever every look finds the first content; the rules give the exact
condition for that.
-/

namespace Njs.Lib

variable {ε σ ι α β γ : Type}

/-- A command that returns a value or throws an exception, and leaves a state. -/
def Effect (ε σ β : Type) : Type := σ → Except ε β × σ

namespace Effect

def pure (b : β) : Effect ε σ β := fun s => (.ok b, s)

def bind (y : Effect ε σ β) (g : β → Effect ε σ γ) : Effect ε σ γ := fun s =>
  match y s with
  | (.ok b, s) => g b s
  | (.error e, s) => (.error e, s)

def throw (e : ε) : Effect ε σ β := fun s => (.error e, s)

instance : Monad (Effect ε σ) where
  pure := Effect.pure
  bind := Effect.bind

theorem bind_run_ok {y : Effect ε σ β} {g : β → Effect ε σ γ} {s s' : σ} {b : β}
    (h : y s = (.ok b, s')) : (y >>= g) s = g b s' := by
  change bind y g s = g b s'
  unfold bind
  rw [h]

theorem bind_run_error {y : Effect ε σ β} {g : β → Effect ε σ γ} {s s' : σ} {e : ε}
    (h : y s = (.error e, s')) : (y >>= g) s = (.error e, s') := by
  change bind y g s = (.error e, s')
  unfold bind
  rw [h]

theorem bind_assoc {δ : Type} (y : Effect ε σ β) (g : β → Effect ε σ γ) (h : γ → Effect ε σ δ) :
    y >>= g >>= h = y >>= fun b => g b >>= h := by
  funext s
  rcases hy : y s with ⟨e | b, s'⟩
  · rw [bind_run_error hy, bind_run_error (bind_run_error hy)]
  · rw [bind_run_ok hy]
    rcases hg : g b s' with ⟨e | c, s''⟩
    · rw [bind_run_error hg, bind_run_error ((bind_run_ok hy).trans hg)]
    · rw [bind_run_ok hg, bind_run_ok ((bind_run_ok hy).trans hg)]

end Effect

/-- A command that keeps a record of the cells that it looked at and of what it found. It has no
result if it stops with a fault. -/
def Watching (ε σ ι α β : Type) : Type := σ → Option (Except ε β × σ) × List (ι × α)

namespace Watching

def pure (b : β) : Watching ε σ ι α β := fun s => (some (.ok b, s), [])

def bind (x : Watching ε σ ι α β) (f : β → Watching ε σ ι α γ) : Watching ε σ ι α γ := fun s =>
  match x s with
  | (some (.ok b, s), looks) => ((f b s).1, looks ++ (f b s).2)
  | (some (.error e, s), looks) => (some (.error e, s), looks)
  | (none, looks) => (none, looks)

instance : Monad (Watching ε σ ι α) where
  pure := Watching.pure
  bind := Watching.bind

/-- A step without looks. -/
def lift (y : Effect ε σ β) : Watching ε σ ι α β := fun s => (some (y s), [])

/-- The content of a cell. -/
def look (read : σ → ι → α) (i : ι) : Watching ε σ ι α α := fun s =>
  (some (.ok (read s i), s), [(i, read s i)])

/-- The command stops. -/
def fault : Watching ε σ ι α β := fun _ => (none, [])

end Watching

/-- Every look found the first content of its cell. -/
def Steady (start : ι → α) (looks : List (ι × α)) : Prop := ∀ l ∈ looks, l.2 = start l.1

theorem Steady.nil {start : ι → α} : Steady start [] := nofun

theorem steady_append {start : ι → α} {looks looks' : List (ι × α)} :
    Steady start (looks ++ looks') ↔ Steady start looks ∧ Steady start looks' := by
  simp only [Steady, List.mem_append, or_imp, forall_and]

theorem steady_singleton {start : ι → α} {i : ι} {a : α} :
    Steady start [(i, a)] ↔ a = start i := by
  simp [Steady]

/-- From a state, the looks of a command find the first contents if and only if the condition
holds, and then the command does what another one does without looks. -/
structure Tracks (start : ι → α) (x : Watching ε σ ι α β) (y : Effect ε σ β) (s : σ) (C : Prop) :
    Prop where
  steady : Steady start (x s).2 ↔ C
  result : C → (x s).1 = some (y s)

namespace Tracks

variable {start : ι → α} {x : Watching ε σ ι α β} {y : Effect ε σ β} {s : σ} {C C' : Prop}
  {f : β → Watching ε σ ι α γ} {g : β → Effect ε σ γ} {read : σ → ι → α} {i : ι}

theorem congr (h : Tracks start x y s C) (hC : C ↔ C') : Tracks start x y s C' :=
  ⟨h.steady.trans hC, fun hc => h.result (hC.mpr hc)⟩

theorem of_eq {y' : Effect ε σ β} (h : Tracks start x y s C) (hy : y = y') :
    Tracks start x y' s C := hy ▸ h

theorem pure (b : β) : Tracks start (Pure.pure b) (Pure.pure b : Effect ε σ β) s True :=
  ⟨⟨fun _ => trivial, fun _ => .nil⟩, fun _ => rfl⟩

theorem lift (y : Effect ε σ β) : Tracks start (Watching.lift y) y s True :=
  ⟨⟨fun _ => trivial, fun _ => .nil⟩, fun _ => rfl⟩

/-- A look goes on with the first content if it finds it. -/
theorem look (read : σ → ι → α) (i : ι) :
    Tracks start (Watching.look read i) (Pure.pure (start i) : Effect ε σ α) s
      (read s i = start i) := by
  refine ⟨steady_singleton, fun h => ?_⟩
  change some (Except.ok (read s i), s) = some (.ok (start i), s)
  rw [h]

theorem bind {D : β → σ → Prop} (hx : Tracks start x y s C)
    (hf : ∀ b s', y s = (.ok b, s') → Tracks start (f b) (g b) s' (D b s')) :
    Tracks start (x >>= f) (y >>= g) s (C ∧ ∀ b s', y s = (.ok b, s') → D b s') := by
  have hbind : (x >>= f) s = Watching.bind x f s := rfl
  by_cases hC : C
  · have hresult := hx.result hC
    have hsteady := hx.steady.mpr hC
    rcases hx₀ : x s with ⟨r, looks⟩
    rw [hx₀] at hresult hsteady
    simp only at hresult
    rcases hy : y s with ⟨e | b, s'⟩
    · rw [hy] at hresult
      subst hresult
      refine ⟨?_, fun _ => ?_⟩
      · simp only [hbind, Watching.bind, hx₀]
        exact ⟨fun _ => ⟨hC, nofun⟩, fun _ => hsteady⟩
      · simp only [hbind, Watching.bind, hx₀, Effect.bind_run_error hy]
    · rw [hy] at hresult
      subst hresult
      have hrest := hf b s' hy
      refine ⟨?_, fun h => ?_⟩
      · simp only [hbind, Watching.bind, hx₀, steady_append, hrest.steady]
        constructor
        · rintro ⟨-, hD⟩
          refine ⟨hC, fun b' s'' h => ?_⟩
          obtain ⟨hb, rfl⟩ := Prod.mk.inj h
          obtain rfl := Except.ok.inj hb
          exact hD
        · rintro ⟨-, hD⟩
          exact ⟨hsteady, hD b s' rfl⟩
      · simp only [hbind, Watching.bind, hx₀, Effect.bind_run_ok hy]
        exact hrest.result (h.2 b s' rfl)
  · have hunsteady : ¬Steady start (x s).2 := fun h => hC (hx.steady.mp h)
    refine ⟨⟨fun h => absurd ?_ hunsteady, fun h => absurd h.1 hC⟩, fun h => absurd h.1 hC⟩
    rw [hbind] at h
    unfold Watching.bind at h
    rcases hx₀ : x s with ⟨r, looks⟩
    rw [hx₀] at h
    rcases r with - | ⟨e | b, s'⟩
    · exact h
    · exact h
    · exact (steady_append.mp h).1

/-- A step without looks, and the rest. -/
theorem lift_bind {D : β → σ → Prop} (y : Effect ε σ β)
    (hf : ∀ b s', y s = (.ok b, s') → Tracks start (f b) (g b) s' (D b s')) :
    Tracks start (Watching.lift y >>= f) (y >>= g) s (∀ b s', y s = (.ok b, s') → D b s') :=
  (bind (lift y) hf).congr ⟨And.right, fun h => ⟨trivial, h⟩⟩

end Tracks

end Njs.Lib
