import Mathlib.Data.List.Basic
import Mathlib.Data.Nat.Basic

/-!
# Absorbing a text block by block

An iterated transformation takes a text in blocks of `n` symbols. A text that comes
in pieces is absorbed up to its last whole block, and the symbols behind that block
wait for the next piece.
-/

namespace Njs.Lib

variable {σ α : Type} (transform : σ → List α → σ) (n : ℕ)

/-- The state after the first `k` blocks of a text. -/
def absorb : ℕ → σ → List α → σ
  | 0, s, _ => s
  | k + 1, s, text => absorb k (transform s (text.take n)) (text.drop n)

/-- The symbols of a text behind its last whole block. -/
def remainder (text : List α) : List α := text.drop (text.length / n * n)

/-- The state after all whole blocks of a text. -/
def absorbAll (s : σ) (text : List α) : σ := absorb transform n (text.length / n) s text

variable {transform n}

theorem absorb_add (j k : ℕ) (s : σ) (text : List α) :
    absorb transform n (j + k) s text =
      absorb transform n k (absorb transform n j s text) (text.drop (j * n)) := by
  induction j generalizing s text with
  | zero => simp [absorb]
  | succ j ih =>
    rw [Nat.succ_add, absorb, ih, absorb, List.drop_drop, Nat.succ_mul, Nat.add_comm n]

/-- Symbols behind the absorbed blocks do not matter. -/
theorem absorb_append {k : ℕ} {left right : List α} (h : k * n ≤ left.length) (s : σ) :
    absorb transform n k s (left ++ right) = absorb transform n k s left := by
  induction k generalizing s left with
  | zero => rfl
  | succ k ih =>
    rw [Nat.succ_mul] at h
    have hn : n ≤ left.length := by omega
    rw [absorb, absorb, List.take_append_of_le_length hn, List.drop_append_of_le_length hn]
    exact ih (by rw [List.length_drop]; omega) _

theorem absorb_take {k : ℕ} {text : List α} (h : k * n ≤ text.length) (s : σ) :
    absorb transform n k s (text.take (k * n)) = absorb transform n k s text := by
  have hlen : k * n ≤ (text.take (k * n)).length := by
    rw [List.length_take]
    omega
  conv_rhs => rw [← List.take_append_drop (k * n) text]
  exact (absorb_append hlen s).symm

theorem remainder_length (text : List α) : (remainder n text).length = text.length % n := by
  rw [remainder, List.length_drop, ← Nat.mod_eq_sub_div_mul]

theorem remainder_of_lt {text : List α} (h : text.length < n) : remainder n text = text := by
  rw [remainder, Nat.div_eq_of_lt h, Nat.zero_mul, List.drop_zero]

theorem absorbAll_of_lt {text : List α} (h : text.length < n) (s : σ) :
    absorbAll transform n s text = s := by
  rw [absorbAll, Nat.div_eq_of_lt h, absorb]

/-- The length of a text up to a block that more symbols complete. -/
private theorem div_append (left right : List α) :
    (left ++ right).length / n =
      left.length / n + (remainder n left ++ right).length / n := by
  rcases Nat.eq_zero_or_pos n with rfl | hn
  · simp
  · rw [List.length_append, List.length_append, remainder_length]
    conv_lhs => rw [← Nat.div_add_mod left.length n, Nat.add_assoc]
    exact Nat.mul_add_div hn _ _

private theorem drop_append_eq (left right : List α) :
    (left ++ right).drop (left.length / n * n) = remainder n left ++ right :=
  List.drop_append_of_le_length (Nat.div_mul_le_self _ _)

/-- A text is absorbed in two pieces, of which the second starts with the symbols that
the first left over. -/
theorem absorbAll_append (s : σ) (left right : List α) :
    absorbAll transform n s (left ++ right) =
      absorbAll transform n (absorbAll transform n s left) (remainder n left ++ right) := by
  rw [absorbAll, div_append, absorb_add, drop_append_eq, absorb_append (Nat.div_mul_le_self _ _)]
  rfl

theorem remainder_append (left right : List α) :
    remainder n (left ++ right) = remainder n (remainder n left ++ right) := by
  rw [remainder, div_append, Nat.add_mul, ← List.drop_drop, drop_append_eq]
  rfl

/-- One whole block. -/
theorem absorbAll_block {text : List α} (h : text.length = n) (hn : 0 < n) (s : σ) :
    absorbAll transform n s text = transform s text := by
  rw [absorbAll, h, Nat.div_self hn, absorb, absorb, ← h, List.take_length]

theorem remainder_block {text : List α} (h : text.length = n) (hn : 0 < n) :
    remainder n text = [] := by
  rw [remainder, h, Nat.div_self hn, Nat.one_mul, ← h, List.drop_length]

end Njs.Lib
