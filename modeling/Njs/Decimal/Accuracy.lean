import Njs.Decimal.Scan
import Mathlib.Algebra.Order.Field.Power
import Mathlib.Data.List.DropRight
import Mathlib.Tactic.NormNum

/-!
# How much of a number its scan keeps

`njs_strtod` hands at most 128 digits and an exponent to `njs_strtod_internal`. Together they
are the number cut off behind these digits, unless leading zeros take up the room or the
exponent is not read to its end.
-/

namespace Njs.Decimal

open Json

variable {digits : List UInt8} {n : Numeral} {q : List UInt8}

/-- The exponent that is written. -/
def exactExponent : Option (UInt8 × Option UInt8 × List UInt8) → ℤ
  | none => 0
  | some (_, sign, digits) =>
    if sign = some 45 then -(digitsValue digits : ℤ) else digitsValue digits

/-- The exact value of a number. -/
def value (n : Numeral) : ℚ :=
  digitsValue (digitsOf n) * 10 ^ (exactExponent n.exponent - (n.fraction.getD []).length)

/-- A value that is not written with less than `k` significant digits. -/
def HasDigits (v : ℚ) (k : ℕ) : Prop :=
  ∀ (m : ℕ) (e : ℤ), v = m * 10 ^ e → 10 ^ (k - 1) ≤ m

/-- The literal is the number cut off behind at most 128 digits, of which at least 19 are
significant if the number has as many. -/
structure Keeps (n : Numeral) (q : List UInt8) (literal : Literal) : Prop where
  rest : literal.rest = q
  length : literal.digits.length ≤ 128
  lower : digitsValue literal.digits * 10 ^ literal.exponent ≤ value n
  upper : value n < (digitsValue literal.digits + 1) * 10 ^ literal.exponent
  zero : digitsValue literal.digits = 0 → value n = 0
  significant : HasDigits (value n) 19 → 10 ^ 18 ≤ digitsValue literal.digits

/-- The zeros that some digits begin with. -/
def leadingZeros (digits : List UInt8) : ℕ := (digits.takeWhile (· = 48)).length

/-- The exponent is not too large to be read. -/
def ExponentRead (n : Numeral) : Prop :=
  ∀ e sign digits, n.exponent = some (e, sign, digits) → digitsValue digits < 2147483630

/-- The scan keeps the number: no sum overflows, and unless the number is zero its exponent is
read and, if there are more than 128 digits, at most 109 of them are leading zeros, or less than
128 if the number has few significant digits. -/
def Accurate (n : Numeral) : Prop :=
  Fits n ∧ (value n = 0 ∨ ExponentRead n ∧
    ((digitsOf n).length ≤ 128 ∨ leadingZeros (digitsOf n) ≤ 109 ∨
      leadingZeros (digitsOf n) < 128 ∧ ¬HasDigits (value n) 19))

/-! ## The value of digits -/

theorem digit_add {c : UInt8} (h : isDigit c = true) : (c - 48).toNat + 48 = c.toNat := by
  have hrange := toNat_of_isDigit h
  rw [UInt8.toNat_sub]
  simp only [UInt8.reduceToNat]
  omega

theorem digit_lt {c : UInt8} (h : isDigit c = true) : (c - 48).toNat < 10 := by
  have hrange := toNat_of_isDigit h
  have hadd := digit_add h
  omega

theorem foldl_digits (start : ℕ) (digits : List UInt8) :
    digits.foldl (fun n c => 10 * n + (c - 48).toNat) start =
      start * 10 ^ digits.length + digitsValue digits := by
  unfold digitsValue
  induction digits generalizing start with
  | nil => simp
  | cons c digits ih =>
    simp only [List.foldl_cons, List.length_cons, Nat.mul_zero, Nat.zero_add]
    rw [ih (10 * start + (c - 48).toNat), ih (c - 48).toNat]
    ring

theorem digitsValue_cons (c : UInt8) (digits : List UInt8) :
    digitsValue (c :: digits) = (c - 48).toNat * 10 ^ digits.length + digitsValue digits := by
  have hfold := foldl_digits (c - 48).toNat digits
  unfold digitsValue
  rw [List.foldl_cons, Nat.mul_zero, Nat.zero_add, hfold]
  rfl

theorem digitsValue_append (left right : List UInt8) :
    digitsValue (left ++ right) = digitsValue left * 10 ^ right.length + digitsValue right := by
  have hfold := foldl_digits (digitsValue left) right
  rw [← hfold, digitsValue, digitsValue, List.foldl_append]

theorem digitsValue_lt (h : ∀ c ∈ digits, isDigit c = true) :
    digitsValue digits < 10 ^ digits.length := by
  induction digits with
  | nil => decide
  | cons c digits ih =>
    have hc := digit_lt (h c List.mem_cons_self)
    have hrest := ih fun d hd => h d (List.mem_cons_of_mem _ hd)
    rw [digitsValue_cons, List.length_cons, pow_succ]
    have hmul : (c - 48).toNat * 10 ^ digits.length ≤ 9 * 10 ^ digits.length :=
      Nat.mul_le_mul_right _ (by omega)
    omega

/-- The zeros in front do not count. -/
theorem digitsValue_bounds (h : ∀ c ∈ digits, isDigit c = true) :
    digitsValue digits < 10 ^ (digits.length - leadingZeros digits) ∧
      (leadingZeros digits < digits.length →
        10 ^ (digits.length - leadingZeros digits - 1) ≤ digitsValue digits) := by
  induction digits with
  | nil => exact ⟨by decide, fun h => absurd h (by decide)⟩
  | cons c digits ih =>
    have hrest : ∀ d ∈ digits, isDigit d = true := fun d hd => h d (List.mem_cons_of_mem _ hd)
    by_cases hc : c = 48
    · subst hc
      have hzeros : leadingZeros (48 :: digits) = leadingZeros digits + 1 := by
        simp [leadingZeros]
      have hvalue : digitsValue (48 :: digits) = digitsValue digits := by
        rw [digitsValue_cons]
        simp
      rw [hzeros, hvalue, List.length_cons, Nat.add_sub_add_right]
      exact ⟨(ih hrest).1, fun hlt => (ih hrest).2 (by omega)⟩
    · have hzeros : leadingZeros (c :: digits) = 0 := by
        simp [leadingZeros, hc]
      have hne : (c - 48).toNat ≠ 0 := by
        intro hzero
        have hadd := digit_add (h c List.mem_cons_self)
        rw [hzero, Nat.zero_add] at hadd
        exact hc (UInt8.toNat_inj.mp hadd.symm)
      have hmul : 1 * 10 ^ digits.length ≤ (c - 48).toNat * 10 ^ digits.length :=
        Nat.mul_le_mul_right _ (by omega)
      rw [hzeros, Nat.sub_zero]
      refine ⟨digitsValue_lt h, fun _ => ?_⟩
      rw [digitsValue_cons, List.length_cons, Nat.add_sub_cancel]
      omega

theorem digitsValue_dropWhile (digits : List UInt8) :
    digitsValue (digits.dropWhile (· = 48)) = digitsValue digits := by
  induction digits with
  | nil => rfl
  | cons c digits ih =>
    by_cases hc : c = 48
    · rw [List.dropWhile_cons_of_pos (by simpa using hc), ih, digitsValue_cons, hc]
      simp
    · rw [List.dropWhile_cons_of_neg (by simpa using hc)]

theorem digitsValue_rdropWhile (digits : List UInt8) :
    digitsValue digits = digitsValue (digits.rdropWhile (· = 48)) *
      10 ^ (digits.length - (digits.rdropWhile (· = 48)).length) := by
  induction digits using List.reverseRecOn with
  | nil => rfl
  | append_singleton digits c ih =>
    by_cases hc : c = 48
    · have hlength := (List.rdropWhile_prefix (p := fun c : UInt8 => decide (c = 48))
        (l := digits)).length_le
      rw [List.rdropWhile_concat_pos _ _ _ (by simpa using hc), digitsValue_append, hc,
        List.length_append, List.length_singleton, Nat.sub_add_comm hlength, pow_one,
        show digitsValue [48] = 0 from rfl, Nat.add_zero]
      nth_rewrite 1 [ih]
      ring
    · rw [List.rdropWhile_concat_neg _ _ _ (by simpa using hc), Nat.sub_self, pow_zero, mul_one]

theorem leadingZeros_take (k : ℕ) (digits : List UInt8) :
    leadingZeros (digits.take k) = min k (leadingZeros digits) := by
  unfold leadingZeros
  induction digits generalizing k with
  | nil => simp
  | cons c digits ih =>
    cases k with
    | zero => simp
    | succ k =>
      by_cases hc : c = 48
      · simp [hc, ih]
      · simp [hc]

/-- Digits cut off behind some of them. -/
theorem digitsValue_take (k : ℕ) (h : ∀ c ∈ digits, isDigit c = true) :
    digitsValue (digits.take k) * 10 ^ (digits.length - k) ≤ digitsValue digits ∧
      digitsValue digits < (digitsValue (digits.take k) + 1) * 10 ^ (digits.length - k) := by
  have hsplit := digitsValue_append (digits.take k) (digits.drop k)
  rw [List.take_append_drop, List.length_drop] at hsplit
  have hlt : digitsValue (digits.drop k) < _ :=
    digitsValue_lt fun c hc => h c (List.mem_of_mem_drop hc)
  rw [List.length_drop] at hlt
  rw [add_one_mul]
  omega

/-! ## The exponent -/

theorem exponentLoop_stuck {exp : ℕ} (h : ¬exp < (2 ^ 31 - 1 - 9) / 10) :
    (exponentLoop exp digits).1 = exp := by
  induction digits with
  | nil => rfl
  | cons c digits ih =>
    unfold exponentLoop
    split_ifs
    · exact ih
    · rfl

/-- The loop over an exponent stops at the value of some of its first digits, and no other one
below `2147483630` is larger. -/
theorem exponentLoop_value {exp : ℕ} (hexp : exp < 2147483630)
    (h : ∀ c ∈ digits, isDigit c = true) :
    (∃ a, a <+: digits ∧
      a.foldl (fun n c => 10 * n + (c - 48).toNat) exp = (exponentLoop exp digits).1) ∧
    (exponentLoop exp digits).1 < 2147483630 ∧
    ∀ a, a <+: digits → a.foldl (fun n c => 10 * n + (c - 48).toNat) exp < 2147483630 →
      a.foldl (fun n c => 10 * n + (c - 48).toNat) exp ≤ (exponentLoop exp digits).1 := by
  induction digits generalizing exp with
  | nil =>
    refine ⟨⟨[], List.prefix_rfl, rfl⟩, hexp, fun a ha _ => ?_⟩
    rw [List.prefix_nil.mp ha]
    exact le_rfl
  | cons c digits ih =>
    have hc := digit_lt (h c List.mem_cons_self)
    by_cases hgrows : exp < (2 ^ 31 - 1 - 9) / 10
    · have hloop : exponentLoop exp (c :: digits) =
          exponentLoop (10 * exp + (c - 48).toNat) digits := by
        rw [exponentLoop, if_pos (h c List.mem_cons_self), if_pos hgrows, Nat.mul_comm]
      obtain ⟨⟨a, ha, hvalue⟩, hlt, hmax⟩ := @ih (10 * exp + (c - 48).toNat) (by omega)
        fun d hd => h d (List.mem_cons_of_mem _ hd)
      rw [hloop]
      refine ⟨⟨c :: a, List.cons_prefix_cons.mpr ⟨rfl, ha⟩, hvalue⟩, hlt, fun b hb hsmall => ?_⟩
      cases b with
      | nil =>
        have hnext := hmax [] List.nil_prefix (by simpa using by omega)
        simp only [List.foldl_nil] at hnext ⊢
        omega
      | cons d b =>
        obtain ⟨rfl, hrest⟩ := List.cons_prefix_cons.mp hb
        exact hmax b hrest hsmall
    · rw [exponentLoop_stuck hgrows]
      refine ⟨⟨[], List.nil_prefix, rfl⟩, hexp, fun b hb hsmall => ?_⟩
      cases b with
      | nil => exact le_rfl
      | cons d b =>
        rw [foldl_digits, List.length_cons, pow_succ] at hsmall
        have hpow := Nat.one_le_pow b.length 10 (by omega)
        have hmul : exp * 1 ≤ exp * 10 ^ b.length := Nat.mul_le_mul_left _ hpow
        rw [← Nat.mul_assoc] at hsmall
        omega

/-- What is read of an exponent. -/
theorem exponentDigits_value (hne : digits ≠ []) (h : ∀ c ∈ digits, isDigit c = true) :
    (∃ a, a <+: digits ∧ digitsValue a = exponentDigits digits) ∧
    exponentDigits digits < 2147483630 ∧
    ∀ a, a <+: digits → digitsValue a < 2147483630 → digitsValue a ≤ exponentDigits digits := by
  obtain ⟨c, digits, rfl⟩ := List.exists_cons_of_ne_nil hne
  have hloop : exponentDigits (c :: digits) = (exponentLoop 0 (c :: digits)).1 := by
    rw [exponentLoop, if_pos (h c List.mem_cons_self), if_pos (by omega), Nat.zero_mul,
      Nat.zero_add]
    rfl
  rw [hloop]
  exact exponentLoop_value (by omega) h

theorem digitsValue_mono {a : List UInt8} (h : a <+: digits) :
    digitsValue a ≤ digitsValue digits := by
  obtain ⟨b, rfl⟩ := h
  rw [digitsValue_append]
  have hpow := Nat.one_le_pow b.length 10 (by omega)
  have hmul : digitsValue a * 1 ≤ digitsValue a * 10 ^ b.length := Nat.mul_le_mul_left _ hpow
  omega

theorem exponent_digits (h : n.Scanned) {e : UInt8} {sign : Option UInt8}
    (hsome : n.exponent = some (e, sign, digits)) :
    digits ≠ [] ∧ ∀ c ∈ digits, isDigit c = true :=
  (h.exponent _ hsome).2.2

theorem exponentValue_lt (h : n.Scanned) : exponentValue n.exponent < 2 ^ 31 := by
  cases hsome : n.exponent with
  | none => decide
  | some exponent =>
    obtain ⟨e, sign, digits⟩ := exponent
    obtain ⟨hne, hdigits⟩ := exponent_digits h hsome
    have hlt := (exponentDigits_value hne hdigits).2.1
    simp only [exponentValue]
    split_ifs <;> omega

/-- The exponent is read as it is written, or it is too large and read as a smaller one. -/
theorem exponentValue_eq_iff (h : n.Scanned) :
    exponentValue n.exponent = exactExponent n.exponent ↔ ExponentRead n := by
  unfold ExponentRead
  cases hsome : n.exponent with
  | none => exact iff_of_true rfl (by rintro - - - ⟨⟩)
  | some exponent =>
    obtain ⟨e, sign, digits⟩ := exponent
    obtain ⟨hne, hdigits⟩ := exponent_digits h hsome
    obtain ⟨⟨a, ha, hvalue⟩, hlt, hmax⟩ := exponentDigits_value hne hdigits
    have hmono := digitsValue_mono ha
    have hiff : exponentDigits digits = digitsValue digits ↔ digitsValue digits < 2147483630 := by
      refine ⟨fun heq => by omega, fun hsmall => ?_⟩
      have hle := hmax digits List.prefix_rfl hsmall
      omega
    have hforall : (∀ e' sign' digits', some (e, sign, digits) = some (e', sign', digits') →
        digitsValue digits' < 2147483630) ↔ digitsValue digits < 2147483630 := by
      refine ⟨fun hread => hread e sign digits rfl, ?_⟩
      rintro hsmall e' sign' digits' ⟨⟩
      exact hsmall
    rw [hforall, ← hiff]
    simp only [exponentValue, exactExponent]
    split_ifs <;> omega

/-- The sums of `njs_strtod` do not overflow if they do not overflow for any exponent that the
loop goes through. -/
theorem sumsFit_iff (h : n.Scanned) : SumsFit n ↔ Fits n := by
  have hfull : 0 < n.whole.length - 128 → keptFraction n = 0 := by
    unfold keptFraction
    omega
  have hkept : keptFraction n ≤ 128 := by
    unfold keptFraction
    omega
  unfold SumsFit Fits
  cases hsome : n.exponent with
  | none =>
    simp only [exponentValue, reduceCtorEq, false_implies, implies_true, and_true]
    omega
  | some exponent =>
    obtain ⟨e, sign, digits⟩ := exponent
    obtain ⟨hne, hdigits⟩ := exponent_digits h hsome
    obtain ⟨⟨a, ha, hvalue⟩, hlt, hmax⟩ := exponentDigits_value hne hdigits
    refine and_congr_right fun hdropped => ⟨?_, fun hall => ?_⟩
    · rintro ⟨hlower, hupper⟩ e' sign' digits' ⟨⟩ b hb hsmall
      have hle := hmax b hb hsmall
      simp only [exponentValue] at hlower hupper
      split_ifs at hlower hupper ⊢ <;> omega
    · have hlargest := hall e sign digits rfl a ha (by omega)
      rw [hvalue] at hlargest
      simp only [exponentValue]
      split_ifs at hlargest ⊢ <;> omega

/-! ## What is kept -/

theorem digitsOf_isDigit (h : n.Scanned) : ∀ c ∈ digitsOf n, isDigit c = true := by
  intro c hc
  rcases List.mem_append.mp hc with hc | hc
  · exact h.whole c hc
  · cases hsome : n.fraction with
    | none => simp [hsome] at hc
    | some digits =>
      rw [hsome] at hc
      exact h.fraction _ hsome c hc

theorem kept_eq (n : Numeral) : n.kept = (digitsOf n).take 128 := by
  rw [Numeral.kept, digitsOf, List.take_append, List.length_take]
  congr 2
  omega

theorem kept_isDigit (h : n.Scanned) : ∀ c ∈ n.kept, isDigit c = true := by
  rw [kept_eq]
  exact fun c hc => digitsOf_isDigit h c (List.mem_of_mem_take hc)

/-- The exponent of the last digit that is kept, which the dropped digits move. -/
theorem power_eq (n : Numeral) : n.power = exponentValue n.exponent - (n.fraction.getD []).length +
    ((digitsOf n).length - 128 : ℕ) := by
  rw [Numeral.power, digitsOf, List.length_append, List.length_take, List.length_take]
  omega

theorem value_eq_zero_iff : value n = 0 ↔ digitsValue (digitsOf n) = 0 := by
  unfold value
  rw [mul_eq_zero, Nat.cast_eq_zero, or_iff_left (zpow_ne_zero _ (by norm_num))]

/-- The number between two multiples of the power of its last digit that is kept, if the exponent
is read. -/
theorem value_bounds (h : n.Scanned) {power : ℤ}
    (hpower : power = exactExponent n.exponent - (n.fraction.getD []).length +
      ((digitsOf n).length - 128 : ℕ)) :
    digitsValue n.kept * 10 ^ power ≤ value n ∧
      value n < (digitsValue n.kept + 1) * 10 ^ power := by
  obtain ⟨hlower, hupper⟩ := digitsValue_take 128 (digitsOf_isDigit h)
  have hpos : (0 : ℚ) < 10 ^ (exactExponent n.exponent - (n.fraction.getD []).length) :=
    zpow_pos (by norm_num) _
  have hsplit : (10 : ℚ) ^ power = ((10 ^ ((digitsOf n).length - 128) : ℕ) : ℚ) *
      10 ^ (exactExponent n.exponent - (n.fraction.getD []).length) := by
    rw [hpower, add_comm, zpow_add₀ (by norm_num), zpow_natCast]
    push_cast
    rfl
  rw [kept_eq, hsplit, ← mul_assoc, ← mul_assoc, value]
  refine ⟨mul_le_mul_of_nonneg_right ?_ hpos.le, mul_lt_mul_of_pos_right ?_ hpos⟩
  · exact_mod_cast hlower
  · exact_mod_cast hupper

/-- Two powers of ten with which the same digits, not all zero, bound a number. -/
theorem power_unique {v : ℚ} {m : ℕ} {a b : ℤ} (hm : m ≠ 0) (ha : m * 10 ^ a ≤ v)
    (ha' : v < (m + 1) * 10 ^ a) (hb : m * 10 ^ b ≤ v) (hb' : v < (m + 1) * 10 ^ b) : a = b := by
  have hone : (1 : ℚ) ≤ m := by exact_mod_cast Nat.one_le_iff_ne_zero.mpr hm
  have hle : ∀ a b : ℤ, m * 10 ^ a ≤ v → v < (m + 1) * 10 ^ b → a ≤ b := by
    intro a b hlower hupper
    by_contra hlt
    have hpow : (10 : ℚ) ^ (b + 1) ≤ 10 ^ a := zpow_le_zpow_right₀ (by norm_num) (by omega)
    have hten : (10 : ℚ) ^ (b + 1) = 10 ^ b * 10 := zpow_add_one₀ (by norm_num) b
    have hpos : (0 : ℚ) < 10 ^ b := zpow_pos (by norm_num) b
    have hlarge : (m : ℚ) * (10 ^ b * 10) ≤ m * 10 ^ a := by
      rw [← hten]
      exact mul_le_mul_of_nonneg_left hpow (by linarith)
    have hmul : (10 : ℚ) ^ b ≤ m * 10 ^ b := by
      calc (10 : ℚ) ^ b = 1 * 10 ^ b := (one_mul _).symm
        _ ≤ m * 10 ^ b := mul_le_mul_of_nonneg_right hone hpos.le
    rw [add_one_mul] at hupper
    linarith
  exact le_antisymm (hle a b ha hb') (hle b a hb ha')

/-- A number that is kept has a digit other than zero among the first 128, or is zero. -/
theorem kept_eq_zero_iff (h : n.Scanned) :
    digitsValue n.kept = 0 ↔ digitsValue (digitsOf n) = 0 ∨
      128 < (digitsOf n).length ∧ 128 ≤ leadingZeros (digitsOf n) := by
  have hdigits := digitsOf_isDigit h
  have hall := digitsValue_bounds hdigits
  have hsome := digitsValue_bounds (kept_isDigit h)
  have hle := (digitsValue_take 128 hdigits).1
  rw [← kept_eq] at hle
  rw [kept_eq, List.length_take, leadingZeros_take, ← kept_eq] at hsome
  have hlengths : leadingZeros (digitsOf n) ≤ (digitsOf n).length :=
    (List.takeWhile_prefix _).length_le
  constructor
  · intro hzero
    by_cases hlong : 128 < (digitsOf n).length
    · refine Or.inr ⟨hlong, ?_⟩
      by_contra hfew
      have hpos := hsome.2 (by omega)
      have hpow : 0 < 10 ^ (min 128 (digitsOf n).length -
        min 128 (leadingZeros (digitsOf n)) - 1) := Nat.pow_pos (by omega)
      omega
    · left
      rw [← hzero, kept_eq, List.take_of_length_le (by omega)]
  · rintro (hzero | ⟨hlong, hmany⟩)
    · rw [hzero] at hle
      have hpow : 0 < 10 ^ ((digitsOf n).length - 128) := Nat.pow_pos (by omega)
      by_contra hne
      have hmul := Nat.mul_pos (Nat.pos_of_ne_zero hne) hpow
      omega
    · have hlt := hsome.1
      rw [show min 128 (digitsOf n).length - min 128 (leadingZeros (digitsOf n)) = 0 by omega,
        pow_zero] at hlt
      omega

/-- The digits that are kept are significant enough, or the number has less digits itself. -/
theorem significant_iff (h : n.Scanned) :
    (HasDigits (value n) 19 → 10 ^ 18 ≤ digitsValue n.kept) ↔
      (digitsOf n).length ≤ 128 ∨ leadingZeros (digitsOf n) ≤ 109 ∨ ¬HasDigits (value n) 19 := by
  have hdigits := digitsOf_isDigit h
  have hbounds := digitsValue_bounds (kept_isDigit h)
  rw [kept_eq, List.length_take, leadingZeros_take, ← kept_eq] at hbounds
  by_cases hshort : (digitsOf n).length ≤ 128
  · refine iff_of_true (fun hmany => ?_) (Or.inl hshort)
    refine hmany (digitsValue n.kept) (exactExponent n.exponent - (n.fraction.getD []).length) ?_
    rw [kept_eq, List.take_of_length_le hshort, value]
  · by_cases hfew : leadingZeros (digitsOf n) ≤ 109
    · refine iff_of_true (fun _ => ?_) (Or.inr (Or.inl hfew))
      have hpow : 10 ^ 18 ≤ 10 ^ (min 128 (digitsOf n).length -
          min 128 (leadingZeros (digitsOf n)) - 1) :=
        Nat.pow_le_pow_right (by omega) (by omega)
      exact hpow.trans (hbounds.2 (by omega))
    · have hpow : 10 ^ (min 128 (digitsOf n).length - min 128 (leadingZeros (digitsOf n))) ≤
          10 ^ 18 := Nat.pow_le_pow_right (by omega) (by omega)
      have hsmall : ¬10 ^ 18 ≤ digitsValue n.kept := by omega
      simp only [hshort, hfew, hsmall, imp_false, false_or]

/-- The digits and the exponent that are handed on keep the number if the number is zero, or the
exponent is read and enough of the digits are significant. -/
theorem keeps_iff (h : n.Scanned) :
    Keeps n q { digits := n.kept, exponent := n.power, rest := q } ↔
      value n = 0 ∨ ExponentRead n ∧
        ((digitsOf n).length ≤ 128 ∨ leadingZeros (digitsOf n) ≤ 109 ∨
          leadingZeros (digitsOf n) < 128 ∧ ¬HasDigits (value n) 19) := by
  have hlength : n.kept.length ≤ 128 := by
    rw [kept_eq, List.length_take]
    omega
  have hpower := power_eq n
  by_cases hzero : value n = 0
  · have hkept : digitsValue n.kept = 0 :=
      (kept_eq_zero_iff h).mpr (Or.inl (value_eq_zero_iff.mp hzero))
    refine iff_of_true ⟨rfl, hlength, ?_, ?_, fun _ => hzero, fun hmany => ?_⟩ (Or.inl hzero)
    · simp [hkept, hzero]
    · have hpos : (0 : ℚ) < 10 ^ n.power := zpow_pos (by norm_num) _
      simpa [hkept, hzero] using hpos
    · exact absurd (hmany 0 0 (by rw [hzero]; simp)) (by decide)
  · by_cases hkept : digitsValue n.kept = 0
    · refine iff_of_false (fun hkeeps => hzero (hkeeps.zero hkept)) ?_
      have hlost := ((kept_eq_zero_iff h).mp hkept).resolve_left
        fun hnone => hzero (value_eq_zero_iff.mpr hnone)
      rintro (hzero' | ⟨-, hshort | hfew | ⟨hfew, -⟩⟩)
      · exact hzero hzero'
      · omega
      · omega
      · omega
    · have hfound : (digitsOf n).length ≤ 128 ∨ leadingZeros (digitsOf n) < 128 := by
        by_contra hlost
        exact hkept ((kept_eq_zero_iff h).mpr (Or.inr (by omega)))
      have hsignificant := significant_iff h
      obtain ⟨hlower, hupper⟩ := value_bounds h rfl
      constructor
      · intro hkeeps
        have heq : n.power = _ := power_unique hkept hkeeps.lower hkeeps.upper hlower hupper
        have hread := (exponentValue_eq_iff h).mp (by omega)
        refine Or.inr ⟨hread, ?_⟩
        rcases hsignificant.mp hkeeps.significant with hshort | hfew | hless
        · exact Or.inl hshort
        · exact Or.inr (Or.inl hfew)
        · exact hfound.imp_right fun hlt => Or.inr ⟨hlt, hless⟩
      · rintro (hzero' | ⟨hread, henough⟩)
        · exact absurd hzero' hzero
        · have heq := (exponentValue_eq_iff h).mpr hread
          rw [heq] at hpower
          rw [← hpower] at hlower hupper
          refine ⟨rfl, hlength, hlower, hupper, fun hnone => absurd hnone hkept,
            hsignificant.mpr ?_⟩
          rcases henough with hshort | hfew | ⟨-, hless⟩
          · exact Or.inl hshort
          · exact Or.inr (Or.inl hfew)
          · exact Or.inr (Or.inr hless)

/-- `njs_strtod` consumes the longest number of a text and keeps its value exactly if no sum
overflows, the exponent is read and the leading zeros leave room for the other digits. -/
theorem strtod_keeps_iff (h : IsLongest n q) :
    (∃ literal, strtod (n.text ++ q) = .ok (some literal) ∧ Keeps n q literal) ↔
      Accurate n := by
  obtain ⟨hfits, hfault⟩ := strtod_longest h (exponentValue_lt h.scanned)
  rw [sumsFit_iff h.scanned] at hfits hfault
  unfold Accurate
  rw [← keeps_iff (q := q) h.scanned]
  constructor
  · rintro ⟨literal, hscan, hkeeps⟩
    by_cases hsums : Fits n
    · rw [hfits hsums] at hscan
      obtain rfl := Option.some.inj (Except.ok.inj hscan)
      exact ⟨hsums, hkeeps⟩
    · rw [hfault hsums] at hscan
      cases hscan
  · rintro ⟨hsums, hkeeps⟩
    exact ⟨_, hfits hsums, hkeeps⟩

/-- The number 1 is kept. -/
theorem strtod_keeps_one :
    (∃ literal, strtod [49] = .ok (some literal) ∧ Keeps ⟨[49], none, none⟩ [] literal) ↔
      Accurate ⟨[49], none, none⟩ :=
  strtod_keeps_iff (n := ⟨[49], none, none⟩)
    (isLongest_nil ⟨fun _ hc => List.mem_singleton.mp hc ▸ rfl, by simp, by simp, by simp⟩)

/-- `0.` with 128 zeros and a one behind the point. -/
def tiny : Numeral := ⟨[48], some (List.replicate 128 48 ++ [49]), none⟩

theorem tiny_scanned : tiny.Scanned where
  whole _ hc := List.mem_singleton.mp hc ▸ rfl
  fraction digits hdigits c hc := by
    rw [← Option.some.inj hdigits] at hc
    rcases List.mem_append.mp hc with hc | hc
    · rw [List.eq_of_mem_replicate hc]
      rfl
    · rw [List.mem_singleton.mp hc]
      rfl
  exponent := by rintro - ⟨⟩
  digits := by simp [tiny]

/-- The only digit that is not zero is dropped, with what it stands for. -/
theorem tiny_not_kept :
    ¬∀ (n : Numeral) (q : List UInt8), IsLongest n q →
      ∃ literal, strtod (n.text ++ q) = .ok (some literal) ∧ Keeps n q literal := by
  intro h
  have hlongest := isLongest_nil tiny_scanned
  obtain ⟨literal, hscan, hkeeps⟩ := h tiny [] hlongest
  have hfits : Fits tiny := ⟨by decide, by rintro - - - ⟨⟩⟩
  rw [(strtod_longest hlongest (by decide)).1 ((sumsFit_iff tiny_scanned).mpr hfits)] at hscan
  obtain rfl := Option.some.inj (Except.ok.inj hscan)
  have hzeros : leadingZeros (digitsOf tiny) = 129 := by
    simp [leadingZeros, digitsOf, tiny]
  have hvalue := value_eq_zero_iff.mp (hkeeps.zero ((kept_eq_zero_iff tiny_scanned).mpr
    (Or.inr ⟨by simp [digitsOf, tiny], by omega⟩)))
  have hpos := (digitsValue_bounds (digitsOf_isDigit tiny_scanned)).2
    (by rw [hzeros]; simp [digitsOf, tiny])
  rw [hvalue, hzeros] at hpos
  simp [digitsOf, tiny] at hpos

end Njs.Decimal
