import Mathlib.Data.List.Count
import Mathlib.Data.List.Perm.Subperm

/-!
# Histories of an allocator

An allocator is seen through the history of its answers and of the blocks given
back. A history is legal when it grants no live block and every block given back was
live, and a data structure owns some blocks when the live ones are exactly these.
-/

namespace Njs.Lib

variable {B : Type} [DecidableEq B]

/-- One event in the history of an allocator. -/
inductive Event (B : Type)
  | granted (b : B)
  | refused
  | released (b : B)
  deriving DecidableEq

/-- The latest event comes first. -/
abbrev History (B : Type) : Type := List (Event B)

namespace History

/-- The blocks that are granted and not released. -/
def live : History B → List B
  | [] => []
  | .granted b :: h => b :: live h
  | .refused :: h => live h
  | .released b :: h => (live h).erase b

/-- No granted block was live at the time, and every released block was. -/
def Legal : History B → Prop
  | [] => True
  | .granted b :: h => b ∉ live h ∧ Legal h
  | .refused :: h => Legal h
  | .released b :: h => b ∈ live h ∧ Legal h

/-- The number of requests that were refused. -/
def refusals : History B → ℕ
  | [] => 0
  | .refused :: h => refusals h + 1
  | .granted _ :: h => refusals h
  | .released _ :: h => refusals h

variable {h base : History B} {b : B} {bs cs : List B}

/-- No block is live twice. -/
theorem Legal.nodup_live (hlegal : Legal h) : h.live.Nodup := by
  induction h with
  | nil => exact List.nodup_nil
  | cons e h ih =>
    cases e with
    | granted b => exact List.nodup_cons.mpr ⟨hlegal.1, ih hlegal.2⟩
    | refused => exact ih hlegal
    | released b => exact (ih hlegal.2).erase b

/-- A block is released as often as it is granted, up to once less while it is live. -/
theorem Legal.count_granted (hlegal : Legal h) (b : B) :
    h.count (.granted b) = h.count (.released b) + h.live.count b := by
  induction h with
  | nil => rfl
  | cons e h ih =>
    cases e with
    | granted c =>
      have hrest := ih hlegal.2
      simp only [live, List.count_cons, beq_iff_eq, Event.granted.injEq, reduceCtorEq, if_false]
      omega
    | refused =>
      have hrest := ih hlegal
      simp only [live, List.count_cons, beq_iff_eq, reduceCtorEq, if_false]
      omega
    | released c =>
      have hrest := ih hlegal.2
      have hmem := List.count_pos_iff.mpr hlegal.1
      simp only [live, List.count_cons, List.count_erase, beq_iff_eq, Event.released.injEq,
        reduceCtorEq, if_false]
      by_cases hc : c = b
      · subst hc
        simp only [if_true]
        omega
      · simp only [hc, if_false]
        omega

omit [DecidableEq B] in
theorem refusals_mono (hsuffix : base <:+ h) : base.refusals ≤ h.refusals := by
  obtain ⟨events, rfl⟩ := hsuffix
  induction events with
  | nil => exact Nat.le_refl _
  | cons e events ih =>
    cases e with
    | granted b => exact ih
    | refused => exact Nat.le_succ_of_le ih
    | released b => exact ih

/-- What the events after a legal history do to the number of times a block is live. -/
theorem Legal.count_events {events : History B} (hlegal : Legal h) (hlegal' : Legal (events ++ h))
    (b : B) : h.live.count b + events.count (.granted b) =
      (events ++ h).live.count b + events.count (.released b) := by
  have hbefore := hlegal.count_granted b
  have hafter := hlegal'.count_granted b
  rw [List.count_append, List.count_append] at hafter
  omega

/-- After a legal history that continues another one, exactly the blocks of a list are
live. -/
structure Owns (h base : History B) (bs : List B) : Prop where
  legal : h.Legal
  base_suffix : base <:+ h
  live_perm : h.live.Perm bs

theorem owns_nil : Owns ([] : History B) [] [] := ⟨trivial, List.suffix_refl _, List.Perm.refl _⟩

theorem Owns.perm (hown : Owns h base bs) (hp : bs.Perm cs) : Owns h base cs :=
  ⟨hown.legal, hown.base_suffix, hown.live_perm.trans hp⟩

/-- A history continues itself. -/
theorem Owns.rebase (hown : Owns h base bs) : Owns h h bs :=
  ⟨hown.legal, List.suffix_refl _, hown.live_perm⟩

theorem Owns.of_suffix {base' : History B} (hown : Owns h base bs) (hsuffix : base' <:+ base) :
    Owns h base' bs :=
  ⟨hown.legal, hsuffix.trans hown.base_suffix, hown.live_perm⟩

theorem Owns.granted (hown : Owns h base bs) (hb : b ∉ h.live) :
    Owns (.granted b :: h) base (b :: bs) :=
  ⟨⟨hb, hown.legal⟩, hown.base_suffix.trans (List.suffix_cons _ _), hown.live_perm.cons b⟩

theorem Owns.refused (hown : Owns h base bs) : Owns (.refused :: h) base bs :=
  ⟨hown.legal, hown.base_suffix.trans (List.suffix_cons _ _), hown.live_perm⟩

theorem Owns.released (hown : Owns h base (b :: bs)) : Owns (.released b :: h) base bs := by
  have hmem : b ∈ h.live := hown.live_perm.mem_iff.mpr (by simp)
  refine ⟨⟨hmem, hown.legal⟩, hown.base_suffix.trans (List.suffix_cons _ _), ?_⟩
  have herase := hown.live_perm.erase b
  rwa [List.erase_cons_head] at herase

end History

end Njs.Lib
