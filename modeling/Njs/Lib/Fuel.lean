import Mathlib.Order.Nat

/-!
# Functions with fuel

A function that takes fuel yields a result if it has this result with any fuel that is large
enough. The rules follow the ways in which such functions call each other.
-/

namespace Njs.Lib

universe u

variable {α β : Type u} {f g : ℕ → Option α} {r s : α}

/-- With enough fuel the result is `r`. -/
def Yields (f : ℕ → Option α) (r : α) : Prop := ∃ n, ∀ fuel ≥ n, f fuel = some r

theorem yields_of_forall (h : ∀ fuel, f fuel = some r) : Yields f r := ⟨0, fun fuel _ => h fuel⟩

/-- A call takes one unit of fuel. -/
theorem Yields.succ (hfg : ∀ fuel, f (fuel + 1) = g fuel) (h : Yields g r) : Yields f r := by
  obtain ⟨n, hn⟩ := h
  refine ⟨n + 1, fun fuel hfuel => ?_⟩
  obtain ⟨m, rfl⟩ := Nat.exists_eq_add_of_le hfuel
  have hm : n + 1 + m = n + m + 1 := by omega
  rw [hm, hfg]
  exact hn (n + m) (Nat.le_add_right n m)

/-- Two calls in a row need the fuel of both. -/
theorem Yields.bind {h : ℕ → α → Option β} {t : β} (hf : Yields f r)
    (hh : Yields (fun fuel => h fuel r) t) : Yields (fun fuel => f fuel >>= h fuel) t := by
  obtain ⟨n, hn⟩ := hf
  obtain ⟨m, hm⟩ := hh
  refine ⟨max n m, fun fuel hfuel => ?_⟩
  have hfuel₁ : n ≤ fuel := le_trans (le_max_left n m) hfuel
  have hfuel₂ : m ≤ fuel := le_trans (le_max_right n m) hfuel
  simp only [hn fuel hfuel₁, Option.bind_eq_bind, Option.bind_some]
  exact hm fuel hfuel₂

end Njs.Lib
