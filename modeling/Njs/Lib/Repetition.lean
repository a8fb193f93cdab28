import Mathlib.Data.List.Basic

/-!
# Repeated sequences

The first elements of a sequence that is repeated without end.
-/

namespace Njs.Lib

variable {α : Type*}

/-- The first `k` elements of a sequence that is repeated. The empty one has no elements. -/
def repeated (l : List α) (k : ℕ) : List α := (List.replicate k l).flatten.take k

theorem replicate_flatten_length (l : List α) (n : ℕ) :
    (List.replicate n l).flatten.length = n * l.length := by
  simp

@[simp] theorem repeated_zero (l : List α) : repeated l 0 = [] := rfl

@[simp] theorem repeated_nil (k : ℕ) : repeated ([] : List α) k = [] := by simp [repeated]

/-- More copies than are needed make no difference. -/
theorem take_replicate_flatten (l : List α) {n m k : ℕ} (hnm : n ≤ m) (hk : k ≤ n * l.length) :
    (List.replicate m l).flatten.take k = (List.replicate n l).flatten.take k := by
  obtain ⟨d, rfl⟩ := Nat.exists_eq_add_of_le hnm
  rw [List.replicate_add, List.flatten_append, List.take_append_of_le_length]
  rwa [replicate_flatten_length]

theorem repeated_map {β : Type*} (f : α → β) (l : List α) (k : ℕ) :
    repeated (l.map f) k = (repeated l k).map f := by
  rw [repeated, repeated, List.map_take, List.map_flatten, List.map_replicate]

theorem mem_of_mem_repeated {l : List α} {k : ℕ} {a : α} (h : a ∈ repeated l k) : a ∈ l := by
  obtain ⟨l', hl', ha⟩ := List.mem_flatten.mp (List.mem_of_mem_take h)
  rwa [List.eq_of_mem_replicate hl'] at ha

section Nonempty

variable {l : List α} (hl : l ≠ [])

include hl

theorem le_mul_length (k : ℕ) : k ≤ k * l.length :=
  Nat.le_mul_of_pos_right k (List.length_pos_of_ne_nil hl)

theorem repeated_length (k : ℕ) : (repeated l k).length = k := by
  rw [repeated, List.length_take, replicate_flatten_length]
  exact Nat.min_eq_left (le_mul_length hl k)

theorem repeated_take {k m : ℕ} (hkm : k ≤ m) : (repeated l m).take k = repeated l k := by
  rw [repeated, repeated, List.take_take, Nat.min_eq_left hkm]
  exact take_replicate_flatten l hkm (le_mul_length hl k)

/-- Whole copies, and a part of one more. -/
theorem repeated_mul_add {n t : ℕ} (ht : t < l.length) :
    repeated l (n * l.length + t) = (List.replicate n l).flatten ++ l.take t := by
  have hpos := List.length_pos_of_ne_nil hl
  have hle : n * l.length + t ≤ (n + 1) * l.length := by
    rw [Nat.succ_mul]
    omega
  have hone : (List.replicate (n + 1) l).flatten = (List.replicate n l).flatten ++ l := by
    rw [List.replicate_succ', List.flatten_append]
    simp
  have hsame : repeated l (n * l.length + t) =
      (List.replicate (n + 1) l).flatten.take (n * l.length + t) := by
    rcases Nat.le_total (n + 1) (n * l.length + t) with h | h
    · exact take_replicate_flatten l h hle
    · exact (take_replicate_flatten l h (le_mul_length hl _)).symm
  rw [hsame, hone, ← replicate_flatten_length l n, List.take_length_add_append]

/-- The repetition goes on. -/
theorem repeated_append {k m : ℕ} (hkm : k ≤ m) :
    ∃ rest, repeated l m = repeated l k ++ rest ∧ rest.length = m - k := by
  refine ⟨(repeated l m).drop k, ?_, by rw [List.length_drop, repeated_length hl]⟩
  rw [← repeated_take hl hkm, List.take_append_drop]

end Nonempty

end Njs.Lib
