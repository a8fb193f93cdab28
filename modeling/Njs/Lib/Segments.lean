import Mathlib.Data.List.Basic

/-!
# Sequences cut into segments

The offsets at which the segments of a sequence begin, and the number of segments before an
offset. The segments may be the encodings of the characters of a text.
-/

namespace Njs.Lib.Segments

variable {α : Type*}

/-- The offset at which the segment of an index begins. -/
def offset (segs : List (List α)) (k : ℕ) : ℕ := (segs.take k).flatten.length

/-- The number of segments that begin before an offset. -/
def count : List (List α) → ℕ → ℕ
  | [], _ => 0
  | seg :: segs, off => if off = 0 then 0 else count segs (off - seg.length) + 1

/-- A segment ends or begins at an offset. -/
def Cut (segs : List (List α)) (off : ℕ) : Prop := ∃ k ≤ segs.length, offset segs k = off

@[simp] theorem offset_zero (segs : List (List α)) : offset segs 0 = 0 := by simp [offset]

@[simp] theorem count_zero (segs : List (List α)) : count segs 0 = 0 := by
  cases segs <;> simp [count]

@[simp] theorem offset_cons_succ (seg : List α) (segs : List (List α)) (k : ℕ) :
    offset (seg :: segs) (k + 1) = seg.length + offset segs k := by
  simp [offset]

theorem offset_length (segs : List (List α)) : offset segs segs.length = segs.flatten.length := by
  simp [offset]

theorem offset_add (segs : List (List α)) (k i : ℕ) :
    offset segs (k + i) = offset segs k + offset (segs.drop k) i := by
  rw [offset, List.take_add, List.flatten_append, List.length_append]
  rfl

theorem offset_le (segs : List (List α)) (k : ℕ) : offset segs k ≤ segs.flatten.length := by
  conv_rhs => rw [← List.take_append_drop k segs, List.flatten_append, List.length_append]
  exact Nat.le_add_right _ _

theorem drop_offset (segs : List (List α)) (k : ℕ) :
    segs.flatten.drop (offset segs k) = (segs.drop k).flatten := by
  conv_lhs => rw [← List.take_append_drop k segs, List.flatten_append]
  rw [offset, List.take_append_drop]
  exact List.drop_left

theorem take_offset (segs : List (List α)) (k : ℕ) :
    segs.flatten.take (offset segs k) = (segs.take k).flatten := by
  conv_lhs => rw [← List.take_append_drop k segs, List.flatten_append]
  rw [offset, List.take_append_drop]
  exact List.take_left

/-- The elements between two cuts. -/
theorem take_drop_offset (segs : List (List α)) {i j : ℕ} (hij : i ≤ j) :
    (segs.flatten.drop (offset segs i)).take (offset segs j - offset segs i) =
      ((segs.drop i).take (j - i)).flatten := by
  have hadd := offset_add segs i (j - i)
  rw [Nat.add_sub_cancel' hij] at hadd
  rw [drop_offset, hadd, Nat.add_sub_cancel_left, take_offset]

section Nonempty

variable {segs : List (List α)} (hne : ∀ seg ∈ segs, seg ≠ [])

include hne

theorem count_offset {k : ℕ} (hk : k ≤ segs.length) : count segs (offset segs k) = k := by
  induction segs generalizing k with
  | nil =>
    obtain rfl : k = 0 := Nat.le_zero.mp hk
    simp
  | cons seg segs ih =>
    cases k with
    | zero => simp
    | succ k =>
      have hpos : 0 < seg.length := List.length_pos_of_ne_nil (hne seg List.mem_cons_self)
      have hrest := ih (fun s hs => hne s (List.mem_cons_of_mem _ hs))
        (Nat.le_of_succ_le_succ hk)
      rw [offset_cons_succ, count, if_neg (by omega), Nat.add_sub_cancel_left, hrest]

theorem offset_lt_succ {k : ℕ} (hk : k < segs.length) : offset segs k < offset segs (k + 1) := by
  have hpos : 0 < segs[k].length :=
    List.length_pos_of_ne_nil (hne _ (List.getElem_mem hk))
  rw [offset_add, List.drop_eq_getElem_cons hk, offset_cons_succ]
  omega

theorem offset_lt_offset {k i : ℕ} (hki : k < i) (hi : i ≤ segs.length) :
    offset segs k < offset segs i := by
  induction i with
  | zero => exact absurd hki (Nat.not_lt_zero k)
  | succ i ih =>
    have hlast := offset_lt_succ hne (Nat.lt_of_succ_le hi)
    rcases Nat.lt_or_eq_of_le (Nat.le_of_lt_succ hki) with hlt | rfl
    · exact Nat.lt_trans (ih hlt (by omega)) hlast
    · exact hlast

theorem le_offset {k : ℕ} (hk : k ≤ segs.length) : k ≤ offset segs k := by
  induction k with
  | zero => exact Nat.zero_le _
  | succ k ih => exact Nat.lt_of_le_of_lt (ih (by omega)) (offset_lt_succ hne hk)

/-- If there are as many segments as elements, each of them is a segment. -/
theorem offset_eq_self (hlen : segs.flatten.length = segs.length) {k : ℕ}
    (hk : k ≤ segs.length) : offset segs k = k := by
  have hle := le_offset hne hk
  have hrest : segs.length - k ≤ offset (segs.drop k) (segs.length - k) :=
    le_offset (fun seg hseg => hne seg (List.mem_of_mem_drop hseg)) (by simp)
  have hadd := offset_add segs k (segs.length - k)
  rw [Nat.add_sub_cancel' hk, offset_length, hlen] at hadd
  omega

end Nonempty

end Njs.Lib.Segments
