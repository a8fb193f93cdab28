import Mathlib.Algebra.Order.Ring.Rat
import Mathlib.Tactic.Linarith

/-!
# Conversions of numbers

A number of the script is a double. The functions here look at its value only, so the
finite ones are rational numbers, and both zeros are `0`.
-/

namespace Njs

/-- The value of a double. -/
inductive Number
  | nan
  | posInfinity
  | negInfinity
  | finite (q : ℚ)
  deriving DecidableEq

/-- The conversion of C to the unsigned type of `w` bits. -/
def unsigned (w : ℕ) (x : ℤ) : ℕ := (x % 2 ^ w).toNat

theorem unsigned_of_nonneg {w : ℕ} {x : ℤ} (h0 : 0 ≤ x) (h : x < 2 ^ w) :
    unsigned w x = x.toNat := by
  rw [unsigned, Int.emod_eq_of_lt h0 h]

theorem unsigned_natCast {w n : ℕ} (h : n < 2 ^ w) : unsigned w n = n := by
  rw [unsigned_of_nonneg (Int.natCast_nonneg n) (by exact_mod_cast h), Int.toNat_natCast]

/-- The conversion of C from a double to an integer type that has the value. -/
def truncate (q : ℚ) : ℤ := q.num.tdiv q.den

/-- `INT64_MAX`. -/
def int64Max : ℤ := 2 ^ 63 - 1

/-- `INT64_MIN`. -/
def int64Min : ℤ := -2 ^ 63

/-- The number is not reduced modulo `2 ^ 32` by `njs_number_to_int64`. -/
def Number.Exact : Number → Prop
  | .finite q => -9007199254740992 ≤ q ∧ q ≤ 9007199254740992
  | _ => True

/-- `njs_number_to_int64` of a finite number. The remainder of `fmod` has the sign of the
number. -/
def numberToInt64 (q : ℚ) : ℤ :=
  if q < -9007199254740992 ∨ 9007199254740992 < q then (truncate q).tmod 4294967296
  else truncate q

/-- `njs_number_to_integer`. -/
def numberToInteger : Number → ℤ
  | .negInfinity => int64Min
  | .posInfinity => int64Max
  | .nan => 0
  | .finite q => numberToInt64 q

/-- `njs_number_to_length`. The conversion of a NaN to `uint32_t` gives 0. -/
def numberToLength : Number → ℕ
  | .nan => 0
  | .posInfinity => 2 ^ 32 - 1
  | .negInfinity => 0
  | .finite q =>
    if 2 ^ 32 - 1 < q then 2 ^ 32 - 1
    else if q < 0 then 0
    else unsigned 32 (truncate q)

/-- `(uint32_t) num`. Where C leaves it undefined, because the integer does not fit, the
model has 0. -/
def Number.castUInt32 : Number → ℕ
  | .finite q => if 0 ≤ truncate q ∧ truncate q < 2 ^ 32 then (truncate q).toNat else 0
  | _ => 0

theorem truncate_natCast (n : ℕ) : truncate (n : ℚ) = n := by
  simp [truncate]

theorem truncate_intCast (z : ℤ) : truncate (z : ℚ) = z := by
  simp [truncate]

theorem castUInt32_natCast {n : ℕ} (h : n < 2 ^ 32) : (Number.finite n).castUInt32 = n := by
  unfold Number.castUInt32
  simp only
  rw [truncate_natCast, if_pos (by omega), Int.toNat_natCast]

theorem numberToLength_natCast {n : ℕ} (h : n < 2 ^ 32) : numberToLength (.finite n) = n := by
  have hle : ¬((2 : ℚ) ^ 32 - 1 < n) := by
    have hcast : ((n + 1 : ℕ) : ℚ) ≤ ((2 ^ 32 : ℕ) : ℚ) := by exact_mod_cast h
    push_cast at hcast
    exact not_lt.mpr (by linarith)
  have hneg : ¬((n : ℚ) < 0) := not_lt.mpr (Nat.cast_nonneg n)
  unfold numberToLength
  simp only
  rw [if_neg hle, if_neg hneg, truncate_natCast, unsigned_natCast h]

theorem numberToLength_lt (num : Number) : numberToLength num < 2 ^ 32 := by
  unfold numberToLength
  split
  · decide
  · decide
  · decide
  · split_ifs
    · decide
    · decide
    · unfold unsigned
      omega

end Njs
