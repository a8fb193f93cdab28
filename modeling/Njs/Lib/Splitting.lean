import Mathlib.Algebra.GroupWithZero.Nat
import Mathlib.Data.List.Basic

/-!
# Splitting at a separator

The first place where a sequence occurs in another one, and the parts between the places where
it occurs, from the first on. The separator between the parts gives the sequence back.
-/

namespace Njs.Lib

variable {α : Type*} [DecidableEq α]

/-- The first place where a sequence occurs. -/
def firstPlace (sep l : List α) : Option ℕ :=
  (List.range (l.length + 1)).find? fun i => sep <+: l.drop i

theorem firstPlace_eq_some {sep l : List α} {i : ℕ} :
    firstPlace sep l = some i ↔ i ≤ l.length ∧ sep <+: l.drop i ∧
      ∀ j < i, ¬ sep <+: l.drop j := by
  rw [firstPlace, List.find?_range_eq_some]
  simp only [decide_eq_true_eq, List.mem_range, Bool.not_eq_true', decide_eq_false_iff_not]
  constructor
  · rintro ⟨hat, hi, hfirst⟩
    exact ⟨by omega, hat, hfirst⟩
  · rintro ⟨hi, hat, hfirst⟩
    exact ⟨hat, by omega, hfirst⟩

theorem firstPlace_eq_none {sep l : List α} (hsep : sep ≠ []) :
    firstPlace sep l = none ↔ ∀ i, ¬ sep <+: l.drop i := by
  rw [firstPlace, List.find?_range_eq_none]
  simp only [Bool.not_eq_true', decide_eq_false_iff_not]
  constructor
  · intro hnone i hat
    have hle := hat.length_le
    have hpos := List.length_pos_of_ne_nil hsep
    rw [List.length_drop] at hle
    exact hnone i (by omega) hat
  · intro hnone i _
    exact hnone i

/-- The parts between the occurrences of a separator, or the elements if it is empty. -/
def splitOn (sep l : List α) : List (List α) :=
  if sep = [] then l.map fun a => [a]
  else match firstPlace sep l with
    | none => [l]
    | some i => if i < l.length then l.take i :: splitOn sep (l.drop (i + sep.length)) else [l]
termination_by l.length
decreasing_by
  rename_i hsep hlt
  have hpos := List.length_pos_of_ne_nil hsep
  rw [List.length_drop]
  omega

theorem splitOn_nil (l : List α) : splitOn [] l = l.map fun a => [a] := by
  rw [splitOn, if_pos rfl]

section Separator

variable {sep l : List α} (hsep : sep ≠ [])

include hsep

theorem splitOn_of_none (h : firstPlace sep l = none) : splitOn sep l = [l] := by
  rw [splitOn, if_neg hsep, h]

theorem splitOn_of_some {i : ℕ} (h : firstPlace sep l = some i) :
    splitOn sep l = l.take i :: splitOn sep (l.drop (i + sep.length)) := by
  have hlt : i < l.length := by
    have hle := (firstPlace_eq_some.mp h).2.1.length_le
    have hpos := List.length_pos_of_ne_nil hsep
    rw [List.length_drop] at hle
    omega
  rw [splitOn, if_neg hsep, h]
  simp only [if_pos hlt]

theorem splitOn_ne_nil : splitOn sep l ≠ [] := by
  cases h : firstPlace sep l with
  | none => rw [splitOn_of_none hsep h]; exact List.cons_ne_nil _ _
  | some i => rw [splitOn_of_some hsep h]; exact List.cons_ne_nil _ _

/-- An induction over the parts: either the separator does not occur, or the rest after its
first occurrence is split. -/
theorem splitOn_induction {p : List α → Prop}
    (none : ∀ l, firstPlace sep l = none → p l)
    (some : ∀ l i, firstPlace sep l = some i → p (l.drop (i + sep.length)) → p l) (l : List α) :
    p l := by
  induction hlen : l.length using Nat.strongRecOn generalizing l with
  | _ n ih =>
    cases h : firstPlace sep l with
    | none => exact none l h
    | some i =>
      have hle := (firstPlace_eq_some.mp h).2.1.length_le
      have hpos := List.length_pos_of_ne_nil hsep
      rw [List.length_drop] at hle
      refine some l i h (ih _ ?_ _ rfl)
      rw [List.length_drop]
      omega

theorem intercalate_splitOn_of_ne_nil (l : List α) : sep.intercalate (splitOn sep l) = l := by
  induction l using splitOn_induction hsep with
  | none l h => rw [splitOn_of_none hsep h, List.intercalate_singleton]
  | some l i h ih =>
    obtain ⟨-, ⟨rest, hrest⟩, -⟩ := firstPlace_eq_some.mp h
    rw [splitOn_of_some hsep h, List.intercalate_cons_of_ne_nil (splitOn_ne_nil hsep), ih,
      ← List.drop_drop, ← hrest, List.drop_left, List.append_assoc, hrest,
      List.take_append_drop]

/-- No part contains the separator. -/
theorem not_infix_of_mem_splitOn (l : List α) : ∀ part ∈ splitOn sep l, ¬ sep <:+: part := by
  induction l using splitOn_induction hsep with
  | none l h =>
    rw [splitOn_of_none hsep h]
    rintro part hpart ⟨s, t, heq⟩
    obtain rfl := List.mem_singleton.mp hpart
    refine (firstPlace_eq_none hsep).mp h s.length ⟨t, ?_⟩
    rw [← heq, List.append_assoc, List.drop_left]
  | some l i h ih =>
    obtain ⟨hi, -, hfirst⟩ := firstPlace_eq_some.mp h
    rw [splitOn_of_some hsep h]
    intro part hpart
    rcases List.mem_cons.mp hpart with rfl | hpart
    · rintro ⟨s, t, heq⟩
      have hlen := congrArg List.length heq
      have hpos := List.length_pos_of_ne_nil hsep
      rw [List.length_append, List.length_append, List.length_take_of_le hi] at hlen
      refine hfirst s.length (by omega) ⟨t ++ l.drop i, ?_⟩
      conv_rhs => rw [← List.take_append_drop i l, ← heq]
      rw [List.append_assoc, List.append_assoc, List.drop_left]
    · exact ih part hpart

end Separator

theorem splitOn_length_le (sep l : List α) : (splitOn sep l).length ≤ l.length + 1 := by
  by_cases hsep : sep = []
  · rw [hsep, splitOn_nil, List.length_map]
    exact Nat.le_succ _
  · induction l using splitOn_induction hsep with
    | none l h =>
      rw [splitOn_of_none hsep h, List.length_singleton]
      exact Nat.le_add_left 1 _
    | some l i h ih =>
      have hle := (firstPlace_eq_some.mp h).2.1.length_le
      have hpos := List.length_pos_of_ne_nil hsep
      rw [List.length_drop] at hle ih
      rw [splitOn_of_some hsep h, List.length_cons]
      omega

omit [DecidableEq α] in
theorem nil_intercalate (ls : List (List α)) : [].intercalate ls = ls.flatten := by
  induction ls with
  | nil => rfl
  | cons l ls ih =>
    rcases ls with - | ⟨l', ls⟩
    · simp
    · rw [List.intercalate_cons_cons, ih]
      simp

omit [DecidableEq α] in
theorem intercalate_length (sep : List α) (ls : List (List α)) :
    (sep.intercalate ls).length = (ls.map List.length).sum + sep.length * (ls.length - 1) := by
  induction ls with
  | nil => simp
  | cons l ls ih =>
    rcases ls with - | ⟨l', ls⟩
    · simp
    · rw [List.intercalate_cons_cons, List.length_append, List.length_append, ih]
      simp only [List.map_cons, List.sum_cons, List.length_cons, Nat.add_sub_cancel,
        Nat.mul_succ]
      omega

/-- The separator between the parts gives the sequence back. -/
theorem intercalate_splitOn (sep l : List α) : sep.intercalate (splitOn sep l) = l := by
  by_cases hsep : sep = []
  · rw [hsep, nil_intercalate, splitOn_nil, ← List.flatMap_def]
    exact List.flatMap_singleton' l
  · exact intercalate_splitOn_of_ne_nil hsep l

end Njs.Lib
