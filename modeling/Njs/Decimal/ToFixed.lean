import Njs.Decimal.FixedDigits
import Mathlib.Tactic.NormNum

/-!
# `toFixed` is exact

Whichever way the digits are found, they stand for the number rounded to the digits asked for.
Trimming the zeros and writing them again around the point keeps that number.
-/

namespace Njs.Decimal

variable {a digits : List UInt8} {x : ℚ} {frac n word : ℕ} {point : ℤ}

/-! ## Trimming -/

theorem drop_length_takeWhile (p : UInt8 → Bool) (l : List UInt8) :
    l.drop (l.takeWhile p).length = l.dropWhile p := by
  have hsplit := l.takeWhile_append_dropWhile (p := p)
  have hdrop := @List.drop_left _ (l.takeWhile p) (l.dropWhile p)
  rwa [hsplit] at hdrop

/-- The zeros at both ends are not needed. -/
theorem Rounded.trimZeroes (h : Rounded x frac (digits, point)) :
    Rounded x frac (trimZeroes digits point) ∧ (trimZeroes digits point).1.head? ≠ some 48 := by
  obtain ⟨hdigits, ⟨j, hj, hvalue⟩, hlength, hpoint⟩ := h
  simp only at hdigits hj hvalue hlength hpoint
  have hvalue' := digitsValue_rdropWhile digits
  have hle : (digits.rdropWhile (· = 48)).length ≤ digits.length :=
    (List.rdropWhile_prefix (p := (· = 48)) digits).length_le
  have hsub : ∀ c ∈ digits.rdropWhile (· = 48), c ∈ digits := fun c hc =>
    (List.rdropWhile_prefix (p := (· = 48)) digits).subset hc
  unfold Decimal.trimZeroes
  simp only
  generalize digits.rdropWhile (· = 48) = trimmed at *
  rw [drop_length_takeWhile]
  have hsplit := congrArg List.length (trimmed.takeWhile_append_dropWhile (p := (· = 48)))
  rw [List.length_append] at hsplit
  refine ⟨⟨fun c hc => hdigits c (hsub c ((List.dropWhile_sublist _).subset hc)),
    ⟨j + (digits.length - trimmed.length), ?_, ?_⟩, ?_, ?_⟩, ?_⟩
  · simp only
    omega
  · simp only
    rw [digitsValue_dropWhile, pow_add, ← hvalue, hvalue']
    ring
  · simp only
    omega
  · simp only
    omega
  · intro hhead
    obtain ⟨c, rest, hrest⟩ := List.exists_cons_of_ne_nil (l := trimmed.dropWhile (· = 48))
      (fun hnil => by simp [hnil] at hhead)
    have hnot := List.head_dropWhile_not (p := (· = 48)) (l := trimmed) (by rw [hrest]; simp)
    simp only [hrest, List.head_cons, decide_eq_false_iff_not] at hnot
    rw [hrest, List.head?_cons, Option.some_inj] at hhead
    exact hnot hhead

/-! ## The five ways -/

theorem d2diyfp_eq (word : ℕ) : d2diyfp word = ⟨double.significand word, double.exponent word⟩ := by
  have hfraction : double.fraction = 52 := rfl
  have hleast : double.least = -1074 := rfl
  unfold d2diyfp Lib.BinaryFormat.significand Lib.BinaryFormat.exponent
  rw [hfraction, hleast]
  by_cases hzero : word / 2 ^ 52 = 0
  · rw [if_neg (not_not.mpr hzero), if_pos hzero, hzero, Nat.mod_eq_of_lt (by omega)]
    rfl
  · rw [if_pos hzero, if_neg hzero]
    congr 1
    omega

theorem d2diyfp_bounds (word : ℕ) :
    (d2diyfp word).significand < 2 ^ 53 ∧
      (2 ^ 52 ≤ (d2diyfp word).significand ∨ (d2diyfp word).exp = -1074) ∧
      -1074 ≤ (d2diyfp word).exp := by
  have hlt := Nat.mod_lt word (Nat.two_pow_pos 52)
  unfold d2diyfp
  split_ifs with hzero
  · simp only
    omega
  · exact ⟨hlt.trans (by norm_num), .inr rfl, le_rfl⟩

/-- The digits of a whole number need no rounding. -/
theorem rounded_nat (h : IsDigits a n) (hlength : a.length ≤ 27) :
    Rounded (n : ℚ) frac (a, (a.length : ℤ)) := by
  refine ⟨h.digits, ⟨frac, rfl, ?_⟩, Nat.lt_of_le_of_lt hlength (by omega), by simp only; omega⟩
  have hcast : (n : ℚ) * 10 ^ frac = (n * 10 ^ frac : ℕ) := by push_cast; rfl
  rw [hcast, floor_half_nat, h.value]

variable {v : DiyFp}

/-- The first digits and the last 17 ones. -/
theorem fixedDigits_large (hsignificand : v.significand < 2 ^ 53) (hhidden : 2 ^ 52 ≤ v.significand)
    (hlow : 12 ≤ v.exp) (hhigh : v.exp ≤ 17) :
    ∃ out, fixedDigits v frac = .ok out ∧ Rounded v.value frac out := by
  obtain ⟨e, he⟩ := Int.eq_ofNat_of_zero_le (show 0 ≤ v.exp by omega)
  obtain ⟨k, hk⟩ := Nat.exists_eq_add_of_le (show e ≤ 17 by omega)
  have hexp : (17 - v.exp).toNat = k := by omega
  have hexp' : v.exp.toNat = e := by omega
  have hpow := Nat.pow_le_pow_right (show 0 < 2 by omega) (show k ≤ 5 by omega)
  have hone := Nat.two_pow_pos k
  have htotal : 0xb1a2bc2ec5 * 2 ^ k * 2 ^ e = 10 ^ 17 := by
    rw [Nat.mul_assoc, ← pow_add, Nat.add_comm, ← hk]
    norm_num
  have hdivisor : 0xb1a2bc2ec5 * 2 ^ k < 2 ^ 64 := by omega
  have hpos : 0 < 0xb1a2bc2ec5 * 2 ^ k := by omega
  have hquotient : v.significand / (0xb1a2bc2ec5 * 2 ^ k) < 10 ^ 9 := by
    rw [Nat.div_lt_iff_lt_mul hpos]
    omega
  have hquotient' : 0 < v.significand / (0xb1a2bc2ec5 * 2 ^ k) := Nat.div_pos (by omega) hpos
  have hmod := Nat.mod_lt v.significand hpos
  have hparts := Nat.div_add_mod' v.significand (0xb1a2bc2ec5 * 2 ^ k)
  unfold fixedDigits
  rw [if_pos (by omega), if_neg (by omega), hexp, hexp', fits64, if_pos hdivisor, ok_bind]
  generalize 0xb1a2bc2ec5 * 2 ^ k = divisor at *
  generalize v.significand / divisor = quotient at *
  generalize v.significand % divisor = remainder at *
  have hremainder : remainder * 2 ^ e < 10 ^ 17 := by
    rw [← htotal]
    exact Nat.mul_lt_mul_of_pos_right hmod (Nat.two_pow_pos e)
  have hdecimal := @length_decimal_le quotient 9 hquotient (by omega)
  obtain ⟨digits, hfill, hdigits, hlength⟩ :=
    @fillDigits64FixedLength_spec (decimal quotient) (remainder * 2 ^ e) hremainder (by omega)
  have hall := (isDigits_decimal quotient).append hdigits
  have hvalue : v.value = (quotient * 10 ^ digits.length + remainder * 2 ^ e : ℕ) := by
    rw [DiyFp.value, he, zpow_natCast, hlength, ← htotal, ← hparts]
    push_cast
    ring
  rw [fits64, if_pos (by omega), ok_bind, ok_bind]
  simp only
  rw [if_neg (by omega), @fillDigits32_eq [] quotient hquotient' (by simp; omega), ok_bind,
    List.nil_append, hfill, ok_bind, hvalue]
  rw [hlength] at hall ⊢
  exact ⟨_, rfl, rounded_nat hall (by simp [hlength]; omega)⟩

/-- The digits of a word. -/
theorem fixedDigits_whole (hsignificand : v.significand < 2 ^ 53) (hhidden : 2 ^ 52 ≤ v.significand)
    (hlow : 0 ≤ v.exp) (hhigh : v.exp < 12) :
    ∃ out, fixedDigits v frac = .ok out ∧ Rounded v.value frac out := by
  obtain ⟨e, he⟩ := Int.eq_ofNat_of_zero_le hlow
  have hexp : v.exp.toNat = e := by omega
  have hpow := Nat.pow_le_pow_right (show 0 < 2 by omega) (show e ≤ 11 by omega)
  have hmul := Nat.mul_lt_mul_of_lt_of_le hsignificand hpow (Nat.two_pow_pos 11)
  have hpos : 0 < v.significand * 2 ^ e := Nat.mul_pos (by omega) (Nat.two_pow_pos e)
  obtain ⟨digits, hfill, hdigits, hlength⟩ :=
    @fillDigits64_spec (v.significand * 2 ^ e) hpos (by omega)
  have hvalue : v.value = (v.significand * 2 ^ e : ℕ) := by
    rw [DiyFp.value, he, zpow_natCast]
    push_cast
    rfl
  unfold fixedDigits
  rw [if_neg (by omega), if_pos hlow, hexp, fits64, if_pos (by omega), ok_bind, hfill, ok_bind,
    hvalue]
  exact ⟨_, rfl, rounded_nat hdigits (by omega)⟩

/-- The digits of the whole part and of the fraction. -/
theorem fixedDigits_mixed (hsignificand : v.significand < 2 ^ 53) (hhidden : 2 ^ 52 ≤ v.significand)
    (hlow : -53 < v.exp) (hhigh : v.exp < 0) (hfrac : frac ≤ 100) :
    ∃ out, fixedDigits v frac = .ok out ∧ Rounded v.value frac out := by
  obtain ⟨e, he⟩ := Int.eq_ofNat_of_zero_le (show 0 ≤ -v.exp by omega)
  have hexp : (-v.exp).toNat = e := by omega
  have hpow := Nat.pow_le_pow_right (show 0 < 2 by omega) (show e ≤ 52 by omega)
  have hpos : 0 < v.significand / 2 ^ e := Nat.div_pos (by omega) (Nat.two_pow_pos e)
  have hle := Nat.div_le_self v.significand (2 ^ e)
  have hmod := Nat.mod_lt v.significand (Nat.two_pow_pos e)
  have hmod' := Nat.mod_le v.significand (2 ^ e)
  have hparts := Nat.div_add_mod' v.significand (2 ^ e)
  have hrest : v.significand - v.significand / 2 ^ e * 2 ^ e = v.significand % 2 ^ e := by omega
  have hvalue : v.value = (v.significand / 2 ^ e : ℕ) + (v.significand % 2 ^ e : ℕ) / 2 ^ e := by
    have hcast : (v.significand : ℚ) = (v.significand / 2 ^ e : ℕ) * 2 ^ e +
        (v.significand % 2 ^ e : ℕ) := by exact_mod_cast hparts.symm
    rw [DiyFp.value, show v.exp = -(e : ℤ) by omega, zpow_neg, zpow_natCast, ← div_eq_mul_inv]
    nth_rewrite 1 [hcast]
    rw [add_div, mul_div_cancel_right₀ _ (by positivity)]
  have hstart : ∃ start, (if 2 ^ 32 - 1 < v.significand / 2 ^ e then
      fillDigits64 (v.significand / 2 ^ e) [] else fillDigits32 (v.significand / 2 ^ e) []) =
        .ok start ∧ IsDigits start (v.significand / 2 ^ e) ∧ start.length ≤ 26 := by
    split_ifs with hlarge
    · obtain ⟨start, hfill, hdigits, hlength⟩ := fillDigits64_spec hpos (by omega)
      exact ⟨start, hfill, hdigits, by omega⟩
    · have hlength := @length_decimal_le (v.significand / 2 ^ e) 10 (by omega) (by omega)
      have hfill := @fillDigits32_eq [] (v.significand / 2 ^ e) hpos (by simp; omega)
      exact ⟨_, hfill, isDigits_decimal _, by simp; omega⟩
  obtain ⟨start, hfill, hdigits, hlength⟩ := hstart
  have hfractions := @fillFractionals_spec start (v.significand % 2 ^ e) _ frac e hdigits hlength
    (by omega) hmod (by omega) (by omega) hfrac
  unfold fixedDigits
  rw [if_neg (by omega), if_neg (by omega), if_pos hlow, hexp]
  simp only
  split_ifs at hfill ⊢
  all_goals
    rw [hfill, ok_bind, hrest, hvalue]
    exact hfractions

/-- The digits of a number below one. -/
theorem fixedDigits_fraction (hsignificand : v.significand < 2 ^ 53) (hlow : -128 ≤ v.exp)
    (hhigh : v.exp ≤ -53) (hfrac : frac ≤ 100) :
    ∃ out, fixedDigits v frac = .ok out ∧ Rounded v.value frac out := by
  obtain ⟨e, he⟩ := Int.eq_ofNat_of_zero_le (show 0 ≤ -v.exp by omega)
  have hexp : (-v.exp).toNat = e := by omega
  have hpow := Nat.pow_le_pow_right (show 0 < 2 by omega) (show 53 ≤ e by omega)
  have hvalue : v.value = (0 : ℕ) + v.significand / 2 ^ e := by
    rw [DiyFp.value, show v.exp = -(e : ℤ) by omega, zpow_neg, zpow_natCast, ← div_eq_mul_inv]
    simp
  unfold fixedDigits
  rw [if_neg (by omega), if_neg (by omega), if_neg (by omega), if_neg (by omega), hexp, hvalue]
  exact fillFractionals_spec .nil (by simp) hsignificand (by omega) (by omega) (by omega) hfrac

/-- No digit of a very small number is asked for. -/
theorem fixedDigits_small (hsignificand : v.significand < 2 ^ 53) (hlow : v.exp < -128)
    (hrange : frac ≤ 20 ∨ (2 : ℚ) ^ (-76 : ℤ) ≤ v.value) :
    ∃ out, fixedDigits v frac = .ok out ∧ Rounded v.value frac out := by
  have hcast : (v.significand : ℚ) < 2 ^ 53 := by exact_mod_cast hsignificand
  have hpow : (2 : ℚ) ^ v.exp ≤ 2 ^ (-129 : ℤ) := zpow_le_zpow_right₀ (by norm_num) (by omega)
  have hpos : (0 : ℚ) < 2 ^ v.exp := Lib.BinaryFormat.two_zpow_pos v.exp
  have hlt : v.value < 2 ^ (-76 : ℤ) := by
    calc v.value < 2 ^ 53 * 2 ^ v.exp := mul_lt_mul_of_pos_right hcast hpos
      _ ≤ 2 ^ 53 * 2 ^ (-129 : ℤ) := mul_le_mul_of_nonneg_left hpow (by positivity)
      _ = 2 ^ (-76 : ℤ) := by norm_num
  have hfrac : frac ≤ 20 := hrange.resolve_right (not_le.mpr hlt)
  have hten : (10 : ℚ) ^ frac ≤ 10 ^ 20 := pow_le_pow_right₀ (by norm_num) hfrac
  have hnonneg : 0 ≤ v.value := mul_nonneg (Nat.cast_nonneg _) hpos.le
  have hhalf : v.value * 10 ^ frac + 1 / 2 < 1 := by
    have hmul : v.value * 10 ^ frac ≤ 2 ^ (-76 : ℤ) * 10 ^ 20 :=
      mul_le_mul hlt.le hten (by positivity) (by positivity)
    have hsmall : (2 : ℚ) ^ (-76 : ℤ) * 10 ^ 20 < 1 / 2 := by norm_num
    have hproduct := hmul.trans_lt hsmall
    linarith only [hproduct]
  unfold fixedDigits
  rw [if_neg (by omega), if_neg (by omega), if_neg (by omega), if_pos hlow]
  refine ⟨_, rfl, by simp, ⟨0, by simp, ?_⟩, by simp, by simp only; omega⟩
  rw [Nat.floor_eq_zero.mpr hhalf]
  rfl

/-! ## All numbers -/

/-- `njs_fixed_dtoa` rounds, and there are no zeros at the ends. -/
theorem fixedDtoa_spec (hsmall : double.value word < 10 ^ 21) (hfrac : frac ≤ 100)
    (hrange : frac ≤ 20 ∨ (2 : ℚ) ^ (-76 : ℤ) ≤ double.value word) :
    ∃ out, fixedDtoa word frac = .ok out ∧ Rounded (double.value word) frac out ∧
      out.1.head? ≠ some 48 ∧ (out.1 = [] → out.2 = -frac) := by
  have hvalue : (d2diyfp word).value = double.value word := by
    rw [d2diyfp_eq]
    rfl
  obtain ⟨hsignificand, hhidden, -⟩ := d2diyfp_bounds word
  have hdigits : ∃ out, fixedDigits (d2diyfp word) frac = .ok out ∧
      Rounded (double.value word) frac out := by
    rw [← hvalue] at hsmall hrange ⊢
    generalize d2diyfp word = v at *
    by_cases hlarge : 18 ≤ v.exp
    · have hge : (2 : ℚ) ^ 52 ≤ v.significand := by
        exact_mod_cast hhidden.resolve_right (by omega)
      have hpow : (2 : ℚ) ^ (18 : ℤ) ≤ 2 ^ v.exp := zpow_le_zpow_right₀ (by norm_num) hlarge
      have hmul := mul_le_mul hge hpow (by positivity) (by positivity)
      have hten : (10 : ℚ) ^ 21 < 2 ^ 52 * 2 ^ (18 : ℤ) := by norm_num
      exact absurd (hten.trans_le hmul) (not_lt.mpr hsmall.le)
    · by_cases hzero : 0 ≤ v.exp
      · by_cases hword : 12 ≤ v.exp
        · exact fixedDigits_large hsignificand (hhidden.resolve_right (by omega)) hword (by omega)
        · exact fixedDigits_whole hsignificand (hhidden.resolve_right (by omega)) hzero (by omega)
      · by_cases hmixed : -53 < v.exp
        · exact fixedDigits_mixed hsignificand (hhidden.resolve_right (by omega)) hmixed (by omega)
            hfrac
        · by_cases hfraction : -128 ≤ v.exp
          · exact fixedDigits_fraction hsignificand hfraction (by omega) hfrac
          · exact fixedDigits_small hsignificand (by omega) hrange
  obtain ⟨⟨digits, point⟩, hrun, hrounded⟩ := hdigits
  obtain ⟨htrimmed, hhead⟩ := hrounded.trimZeroes
  unfold fixedDtoa
  rw [hrun, ok_bind]
  simp only
  generalize trimZeroes digits point = out at *
  obtain ⟨hall, ⟨j, hj, hsum⟩, hlength, hpoint⟩ := htrimmed
  rw [if_neg (by omega)]
  split_ifs with hempty
  · rw [List.length_eq_zero_iff] at hempty
    refine ⟨_, rfl, ⟨hall, ⟨0, by simp [hempty], ?_⟩, hlength, by simp only; omega⟩, hhead,
      fun _ => rfl⟩
    rw [← hsum, hempty]
    simp [digitsValue]
  · exact ⟨_, rfl, ⟨hall, ⟨j, hj, hsum⟩, hlength, hpoint⟩, hhead,
      fun h => absurd (by simp [h]) hempty⟩

/-! ## The text -/

/-- The nearest natural number, the larger one of two. -/
structure Nearest (y : ℚ) (n : ℕ) : Prop where
  nearest : ∀ k : ℤ, |y - n| ≤ |y - k|
  larger : ∀ k : ℤ, |y - n| = |y - k| → k ≤ n

theorem nearest_floor {y : ℚ} (hy : 0 ≤ y) : Nearest y ⌊y + 1 / 2⌋₊ := by
  have hle := Nat.floor_le (show 0 ≤ y + 1 / 2 by linarith)
  have hlt := Nat.lt_floor_add_one (y + 1 / 2)
  generalize ⌊y + 1 / 2⌋₊ = n at *
  have hhalf : |y - n| ≤ 1 / 2 := by
    rw [abs_le]
    constructor
    · linarith
    · linarith
  refine ⟨fun k => ?_, fun k heq => ?_⟩
  · rcases lt_trichotomy k n with hless | rfl | hmore
    · have hcast : (k : ℚ) + 1 ≤ n := by exact_mod_cast hless
      have habs := le_abs_self (y - k)
      linarith
    · rw [Int.cast_natCast]
    · have hcast : (n : ℚ) + 1 ≤ k := by exact_mod_cast hmore
      have habs := neg_abs_le (y - k)
      linarith
  · by_contra hmore
    have hcast : (n : ℚ) + 1 ≤ k := by exact_mod_cast not_le.mp hmore
    have habs := neg_abs_le (y - k)
    linarith

/-- The decimal notation with some digits behind the point of the nearest number that has one. -/
structure IsFixed (number : Double) (frac : ℕ) (text : List UInt8) : Prop where
  parts : ∃ whole fraction n, text = (if number.value < 0 then [45] else []) ++ whole ++
      (if 0 < frac then 46 :: fraction else []) ∧
    fraction.length = frac ∧ (∀ c ∈ whole ++ fraction, isDigit c = true) ∧
    (whole = [48] ∨ whole ≠ [] ∧ whole.head? ≠ some 48) ∧
    digitsValue (whole ++ fraction) = n ∧ Nearest (|number.value| * 10 ^ frac) n

/-- The zeros are written again around the point. -/
theorem exists_padding (h : Rounded x frac (digits, point))
    (hempty : digits = [] → point = -frac) :
    ∃ leading trailing : ℕ, (leading : ℤ) = (if point ≤ 0 then -point + 1 else 0) ∧
      (trailing : ℤ) = (if (leading : ℤ) + digits.length < max point 1 + frac then
        max point 1 + frac - digits.length - leading else 0) ∧
      (leading + digits.length + trailing : ℤ) = max point 1 + frac ∧
      (∀ c ∈ List.replicate leading 48 ++ digits ++ List.replicate trailing 48,
        isDigit c = true) ∧
      digitsValue (List.replicate leading 48 ++ digits ++ List.replicate trailing 48) =
        ⌊x * 10 ^ frac + 1 / 2⌋₊ ∧
      (point ≤ 0 ∧ 0 < leading ∨ 0 < point ∧ leading = 0 ∧ digits ≠ []) := by
  obtain ⟨hdigits, ⟨j, hj, hvalue⟩, -, -⟩ := h
  simp only at hdigits hj hvalue
  obtain ⟨leading, hleading⟩ : ∃ leading : ℕ,
      (leading : ℤ) = if point ≤ 0 then -point + 1 else 0 := by
    split_ifs with hpoint
    · exact ⟨(-point + 1).toNat, by omega⟩
    · exact ⟨0, rfl⟩
  have htotal : (leading + digits.length + j : ℤ) = max point 1 + frac := by
    split_ifs at hleading with hpoint
    · omega
    · omega
  have hall := ((isDigits_zeros leading).append ⟨hdigits, rfl⟩).append (isDigits_zeros j)
  have hsum := hall.value
  rw [List.length_replicate, Nat.zero_mul, Nat.zero_add, Nat.add_zero, hvalue] at hsum
  refine ⟨leading, j, hleading, ?_, htotal, hall.digits, hsum, ?_⟩
  · split_ifs with hlt
    · omega
    · omega
  · by_cases hpoint : point ≤ 0
    · rw [if_pos hpoint] at hleading
      exact .inl ⟨hpoint, by omega⟩
    · rw [if_neg hpoint] at hleading
      refine .inr ⟨by omega, by omega, fun hnil => ?_⟩
      have hneg := hempty hnil
      omega

/-- In front of the point there is a zero, or no zero comes first. -/
theorem whole_padding {leading trailing whole : ℕ} (hhead : digits.head? ≠ some 48)
    (hwhole : point ≤ 0 ∧ 0 < leading ∨ 0 < point ∧ leading = 0 ∧ digits ≠ [])
    (hp : max point 1 = whole) :
    (List.replicate leading 48 ++ digits ++ List.replicate trailing 48).take whole = [48] ∨
      (List.replicate leading 48 ++ digits ++ List.replicate trailing 48).take whole ≠ [] ∧
        ((List.replicate leading 48 ++ digits ++ List.replicate trailing 48).take whole).head? ≠
          some 48 := by
  rcases hwhole with ⟨hpoint, hpos⟩ | ⟨hpoint, rfl, hne⟩
  · obtain ⟨l, rfl⟩ := Nat.exists_eq_succ_of_ne_zero hpos.ne'
    obtain rfl : whole = 1 := by omega
    exact .inl rfl
  · obtain ⟨c, rest, rfl⟩ := List.exists_cons_of_ne_nil hne
    obtain ⟨w, rfl⟩ := Nat.exists_eq_succ_of_ne_zero (show whole ≠ 0 by omega)
    rw [List.head?_cons] at hhead
    exact .inr ⟨by simp, by simpa using hhead⟩

theorem Double.abs_value (number : Double) : |number.value| = double.value number.word := by
  have hnonneg : 0 ≤ double.value number.word :=
    mul_nonneg (Nat.cast_nonneg _) (Lib.BinaryFormat.two_zpow_pos _).le
  unfold Double.value
  split_ifs
  · rw [abs_neg, abs_of_nonneg hnonneg]
  · exact abs_of_nonneg hnonneg

/-- Where the digits asked for are few, or the number is not very small, `toFixed` is exact. -/
theorem prototypeToFixed_exact (env : Env) (numberToString : Double → Result Str.StringValue)
    (number : Double) (frac : ℕ) (hfrac : frac ≤ 100) (hlarge : |number.value| < 10 ^ 21)
    (hrange : frac ≤ 20 ∨ (2 : ℚ) ^ (-76 : ℤ) ≤ |number.value|) :
    Returns env (prototypeToFixed env numberToString number frac) fun text =>
      IsFixed number frac text.bytes ∧ text.length = text.size := by
  rw [number.abs_value] at hlarge hrange
  obtain ⟨⟨digits, point⟩, hrun, hrounded, hhead, hempty⟩ := fixedDtoa_spec hlarge hfrac hrange
  obtain ⟨leading, trailing, hleading, htrailing, htotal, hdigits, hvalue, hwhole⟩ :=
    exists_padding hrounded hempty
  have hlimit := hrounded.point
  have hmax : (if point ≤ 0 then 1 else point) = max point 1 := by
    split_ifs with hpoint
    · exact (max_eq_right (by omega)).symm
    · exact (max_eq_left (by omega)).symm
  obtain ⟨whole, hp⟩ := Int.eq_ofNat_of_zero_le (show 0 ≤ max point 1 by omega)
  unfold prototypeToFixed
  rw [if_neg (by omega), number.abs_value, if_neg (not_le.mpr hlarge), Int.toNat_natCast, hrun,
    ok_bind]
  simp only [hmax, ← hleading, ← htrailing, Int.toNat_natCast]
  have hfirst := @whole_padding digits point leading trailing whole hhead hwhole hp
  have hlength : (List.replicate leading 48 ++ digits ++ List.replicate trailing 48).length =
      whole + frac := by
    simp only [List.length_append, List.length_replicate]
    omega
  rw [hp] at htotal ⊢
  rw [htotal]
  generalize List.replicate leading 48 ++ digits ++ List.replicate trailing 48 = buffer at *
  rw [hlength, if_neg (by omega), Int.toNat_natCast]
  have htail : (buffer.drop whole).take frac = buffer.drop whole := by
    apply List.take_of_length_le
    rw [List.length_drop]
    omega
  rw [htail]
  generalize htext : (if number.value < 0 then [45] else []) ++ buffer.take whole ++
    (if (0 : ℤ) < frac then 46 :: buffer.drop whole else []) = text
  have hsize : ((whole + frac + if number.value < 0 then (1 : ℤ) else 0) +
      if (0 : ℤ) < frac then 1 else 0).toNat = text.length := by
    rw [← htext]
    simp only [List.length_append, List.length_take, hlength]
    split_ifs
    all_goals
      simp only [List.length_cons, List.length_nil, List.length_drop, hlength]
      omega
  have hmaximum : text.length ≤ Str.maxLength := by
    rw [← hsize, Str.maxLength]
    split_ifs
    all_goals omega
  rw [hsize]
  apply (Str.stringAlloc_fill_spec env hmaximum).mono
  intro string hstring
  obtain ⟨hallocated, hbytes⟩ := hstring
  refine ⟨⟨buffer.take whole, buffer.drop whole, _, ?_, ?_, ?_, hfirst, rfl, ?_⟩, ?_⟩
  · rw [hbytes, ← htext]
    simp only [Nat.cast_pos]
  · rw [List.length_drop]
    omega
  · rw [List.take_append_drop]
    exact hdigits
  · rw [List.take_append_drop, hvalue, number.abs_value]
    exact nearest_floor (mul_nonneg (number.abs_value ▸ abs_nonneg _) (by positivity))
  · rw [hallocated.length_eq, hallocated.size_eq]
    split_ifs with hshort
    · rw [Str.shortMax] at hshort
      exact Nat.mod_eq_of_lt (by omega)
    · rfl

/-- A tie goes up. -/
theorem prototypeToFixed_exact_tie :
    Returns ⟨fun _ => true, fun _ => 0⟩ (prototypeToFixed ⟨fun _ => true, fun _ => 0⟩
      (fun _ => .error .fault) ⟨true, 0x4004000000000000, by decide⟩ 0) fun text =>
      IsFixed ⟨true, 0x4004000000000000, by decide⟩ 0 text.bytes ∧ text.length = text.size :=
  prototypeToFixed_exact _ _ ⟨true, 0x4004000000000000, by decide⟩ 0 (by decide)
    (by decide +kernel) (.inl (by decide))

end Njs.Decimal
