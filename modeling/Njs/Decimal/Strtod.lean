import Njs.Decimal.Accuracy
import Njs.Decimal.DiyFp
import Mathlib.Tactic.FieldSimp
import Mathlib.Tactic.GCongr

/-!
# The double of a decimal number

`njs_strtod_internal` multiplies the leading digits with a cached power of ten and keeps count of
the error in eighths of a unit in the last place. It rounds up only where the error does not
matter, and gives the nearest double or the one below.
-/

namespace Njs.Decimal

open Json

/-- The loop of `njs_read_uint64`, with the digits that are not read. -/
def readUint64 (value : ℕ) : List UInt8 → ℕ × List UInt8
  | [] => (value, [])
  | d :: p =>
    if value ≤ (2 ^ 64 - 1) / 10 - 1 then
      readUint64 ((10 * value + (d - 48).toNat) % 2 ^ 64) p
    else (value, d :: p)

/-- `njs_diyfp_read`, with the number of the digits that remain. -/
def diyfpRead (start : List UInt8) : DiyFp × ℕ :=
  match readUint64 0 start with
  | (significand, []) => (⟨significand, 0⟩, 0)
  | (significand, d :: p) =>
    (⟨if 53 ≤ d then (significand + 1) % 2 ^ 64 else significand, 0⟩, (d :: p).length)

/-- `njs_diyfp_sgnd_size`. -/
def diyfpSgndSize (order : ℤ) : ℕ :=
  if -1074 + 53 ≤ order then 53
  else if order ≤ -1074 then 0
  else (order + 1074).toNat

/-- `njs_diyfp_strtod` from the check of the bits behind the double's significand on. -/
def roundBits (value : DiyFp) (error precDigits : ℕ) : ℕ :=
  let precBits := value.significand % 2 ^ precDigits * 8 % 2 ^ 64
  let halfWay := 2 ^ (precDigits - 1) * 8 % 2 ^ 64
  let rounded := value.shiftRight precDigits
  if halfWay + error ≤ precBits then
    (⟨rounded.significand + 1, rounded.exp⟩ : DiyFp).toDouble
  else rounded.toDouble

/-- `njs_diyfp_strtod` behind the multiplications. -/
def roundValue (value : DiyFp) (error : ℕ) : ℕ :=
  let magnitude := 64 + value.exp
  let precDigits := 64 - diyfpSgndSize magnitude
  if 64 ≤ precDigits + 3 then
    let shift := precDigits + 3 - 64 + 1
    roundBits (value.shiftRight shift) (error / 2 ^ shift + 1 + 8) (precDigits - shift)
  else roundBits value error precDigits

/-- The multiplication of `njs_diyfp_strtod` with a small power of ten, if there is one. -/
def adjust (value : DiyFp) (error length : ℕ) (exp decExp : ℤ) : Result (DiyFp × ℕ) :=
  if decExp ≠ exp then do
    let adjPow ← adjustPow10 (exp - decExp)
    .ok (value.mul adjPow, if (19 - length : ℤ) < exp - decExp then error + 4 else error)
  else .ok (value, error)

/-- `njs_diyfp_strtod`. -/
def diyfpStrtod (start : List UInt8) (exp : ℤ) : Result ℕ := do
  let read := diyfpRead start
  let exp := exp + read.2
  let error := if read.2 = 0 then 0 else 4
  let value := read.1.normalize
  let error := error * 2 ^ (read.1.exp - value.exp).toNat
  if exp < -348 then .ok 0
  else do
    let pow ← cachedPowerDec exp
    let adjusted ← adjust value error start.length exp pow.2
    let product := adjusted.1.mul pow.1
    let error := adjusted.2 + (8 + if adjusted.2 ≠ 0 then 1 else 0)
    let value := product.normalize
    .ok (roundValue value (error * 2 ^ (product.exp - value.exp).toNat))

/-- `njs_strtod_internal`. The sums are of type `int`. -/
def strtodInternal (start : List UInt8) (exp : ℤ) : Result ℕ := do
  let left := start.dropWhile (· = 48)
  let right := left.rdropWhile (· = 48)
  if right.isEmpty then .ok 0
  else do
    let shift : ℤ := left.length - right.length
    let limit ← addInt 309 (-shift)
    let limit ← addInt limit (-right.length)
    let limit ← addInt limit 1
    if limit ≤ exp then .ok double.infinity
    else do
      let limit ← addInt (-324) (-shift)
      let limit ← addInt limit (-right.length)
      if exp ≤ limit then .ok 0
      else do
        let exp ← addInt exp shift
        diyfpStrtod right exp

end Njs.Decimal

/-!
## The error of `njs_diyfp_strtod`

The error is counted in eighths of a unit in the last place of the 64 bits. It stays below a
quarter of a unit of the double, so that what is not rounded up is at most one double too small.
-/

namespace Njs.Decimal

open Json

variable {v w : DiyFp} {x y : ℚ} {error m n : ℕ} {digits : List UInt8} {exp : ℤ}

/-! ## Reading the digits -/

/-- The loop stops behind a digit only where the next one may not fit. -/
theorem readUint64_spec {value : ℕ} (hvalue : value ≤ 2 ^ 64 - 7)
    (h : ∀ c ∈ digits, isDigit c = true) :
    ∃ p q, digits = p ++ q ∧
      readUint64 value digits = (value * 10 ^ p.length + digitsValue p, q) ∧
      value * 10 ^ p.length + digitsValue p ≤ 2 ^ 64 - 7 ∧
      (q ≠ [] → 1844674407370955160 < value * 10 ^ p.length + digitsValue p) := by
  induction digits generalizing value with
  | nil =>
    refine ⟨[], [], rfl, ?_, ?_, fun hne => absurd rfl hne⟩
    · simp [readUint64, digitsValue]
    · simpa [digitsValue] using hvalue
  | cons d p ih =>
    have hrest : ∀ c ∈ p, isDigit c = true := fun c hc => h c (List.mem_cons_of_mem _ hc)
    by_cases hread : value ≤ (2 ^ 64 - 1) / 10 - 1
    · have hdigit := digit_lt (h d List.mem_cons_self)
      have hnext : 10 * value + (d - 48).toNat ≤ 2 ^ 64 - 7 := by omega
      obtain ⟨a, b, rfl, hloop, hmax, hmore⟩ := ih hnext hrest
      have hsum : (10 * value + (d - 48).toNat) * 10 ^ a.length + digitsValue a =
          value * 10 ^ (d :: a).length + digitsValue (d :: a) := by
        rw [digitsValue_cons, List.length_cons, pow_succ]
        ring
      rw [hsum] at hloop hmax hmore
      refine ⟨d :: a, b, rfl, ?_, hmax, hmore⟩
      rw [readUint64, if_pos hread, Nat.mod_eq_of_lt (by omega), hloop]
    · refine ⟨[], d :: p, rfl, ?_, ?_, fun _ => ?_⟩
      · rw [readUint64, if_neg hread]
        simp [digitsValue]
      · simpa [digitsValue] using hvalue
      · simp only [digitsValue, List.length_nil, pow_zero, List.foldl_nil]
        omega

/-- The significand that is read is the integer nearest to the digits in front of those that
remain. -/
structure Reads (digits : List UInt8) (significand remaining : ℕ) : Prop where
  read : diyfpRead digits = (⟨significand, 0⟩, remaining)
  pos : 0 < significand
  max : significand < 2 ^ 64
  less : remaining < digits.length
  near : |digitsValue digits / (10 : ℚ) ^ remaining - significand| ≤ 1 / 2
  exact : remaining = 0 → significand = digitsValue digits
  many : remaining ≠ 0 → 20 ≤ digits.length ∧ 2 ^ 60 ≤ significand

theorem exists_reads (h : ∀ c ∈ digits, isDigit c = true) (hpos : 0 < digitsValue digits) :
    ∃ significand remaining, Reads digits significand remaining := by
  obtain ⟨p, q, rfl, hread, hmax, hmore⟩ := readUint64_spec (Nat.zero_le _) h
  rw [Nat.zero_mul, Nat.zero_add] at hread hmax hmore
  have hvalue := digitsValue_append p q
  rcases q with - | ⟨d, q⟩
  · rw [List.append_nil] at hread hpos ⊢
    refine ⟨digitsValue p, 0, ?_, hpos, by omega, ?_, ?_, fun _ => rfl, fun h => absurd rfl h⟩
    · rw [diyfpRead, hread]
    · rw [List.length_pos_iff]
      rintro rfl
      exact absurd hpos (Nat.lt_irrefl 0)
    · rw [pow_zero, div_one, sub_self, abs_zero]
      norm_num
  · have hp : ∀ c ∈ p, isDigit c = true := fun c hc => h c (List.mem_append_left _ hc)
    have hd := digit_lt (h d (by simp))
    have hadd := digit_add (h d (by simp))
    have hq : digitsValue q < 10 ^ q.length := digitsValue_lt fun c hc => h c (by simp [hc])
    have hlarge := hmore (List.cons_ne_nil d q)
    have hlength : 19 ≤ p.length := by
      by_contra hlt
      have hle := Nat.pow_le_pow_right (show 0 < 10 by omega) (show p.length ≤ 18 by omega)
      have hless := digitsValue_lt hp
      omega
    rw [digitsValue_cons] at hvalue
    have hpow : (0 : ℚ) < 10 ^ q.length := by positivity
    have hfraction : (digitsValue (p ++ d :: q) : ℚ) / 10 ^ (q.length + 1) =
        digitsValue p + ((d - 48).toNat + digitsValue q / 10 ^ q.length) / 10 := by
      rw [hvalue]
      push_cast [List.length_cons, pow_succ]
      field_simp
    have hless : (digitsValue q : ℚ) / 10 ^ q.length < 1 := by
      rw [div_lt_one hpow]
      exact_mod_cast hq
    have hzero : (0 : ℚ) ≤ digitsValue q / 10 ^ q.length := by positivity
    have hfive : 53 ≤ d ↔ 5 ≤ (d - 48).toNat := by
      rw [UInt8.le_iff_toNat_le, ← hadd]
      simp only [UInt8.reduceToNat]
      omega
    by_cases hround : 53 ≤ d
    · refine ⟨digitsValue p + 1, q.length + 1, ?_, by omega, by omega, by simp; omega, ?_,
        fun h => by omega, fun _ => ⟨by simp; omega, by omega⟩⟩
      · rw [diyfpRead, hread]
        simp only [if_pos hround, List.length_cons]
        rw [Nat.mod_eq_of_lt (by omega)]
      · have hge : (5 : ℚ) ≤ (d - 48).toNat := by exact_mod_cast hfive.mp hround
        have hle : ((d - 48).toNat : ℚ) ≤ 9 := by exact_mod_cast Nat.le_of_lt_succ hd
        rw [hfraction, abs_le]
        push_cast
        constructor <;> linarith
    · refine ⟨digitsValue p, q.length + 1, ?_, by omega, by omega, by simp; omega, ?_,
        fun h => by omega, fun _ => ⟨by simp; omega, by omega⟩⟩
      · rw [diyfpRead, hread]
        simp only [if_neg hround, List.length_cons]
      · have hle : ((d - 48).toNat : ℚ) ≤ 4 := by
          exact_mod_cast Nat.le_of_lt_succ (not_le.mp (mt hfive.mpr hround))
        have hpos : (0 : ℚ) ≤ (d - 48).toNat := Nat.cast_nonneg _
        rw [hfraction, abs_le]
        constructor <;> linarith

/-! ## Products -/

/-- A number in units of the last place of an `njs_diyfp_t`. -/
def DiyFp.units (v : DiyFp) (x : ℚ) : ℚ := x * 2 ^ (-v.exp)

/-- The error of a number is so many eighths of a unit at most. -/
def DiyFp.Within (v : DiyFp) (x : ℚ) (error : ℕ) : Prop :=
  |v.units x - v.significand| ≤ error / 8

theorem DiyFp.units_mul (v w : DiyFp) (x y : ℚ) :
    (v.mul w).units (x * y) = v.units x * w.units y / 2 ^ 64 := by
  have hexp : (v.mul w).exp = v.exp + w.exp + 64 := rfl
  unfold units
  rw [hexp, show -(v.exp + w.exp + 64) = -v.exp + -w.exp - 64 by ring,
    zpow_sub₀ (by norm_num), zpow_add₀ (by norm_num), show (2 : ℚ) ^ (64 : ℤ) = 2 ^ 64 by norm_num]
  ring

theorem DiyFp.units_normalize (hpos : 0 < v.significand) (hv : v.significand < 2 ^ 64) (x : ℚ) :
    v.normalize.units x = v.units x * 2 ^ leadingZeros64 v.significand := by
  unfold units
  rw [normalize_eq hpos hv]
  simp only
  rw [neg_sub, sub_eq_add_neg, add_comm, zpow_add₀ (by norm_num), zpow_natCast]
  ring

theorem DiyFp.normalize_shift (hpos : 0 < v.significand) (hv : v.significand < 2 ^ 64) :
    (v.exp - v.normalize.exp).toNat = leadingZeros64 v.significand := by
  rw [normalize_eq hpos hv]
  simp only
  omega

/-- The error has the same scale as the significand. -/
theorem DiyFp.normalize_error (hpos : 0 < v.significand) (hv : v.significand < 2 ^ 64) (x : ℚ) :
    |v.normalize.units x - v.normalize.significand| =
      |v.units x - v.significand| * 2 ^ (v.exp - v.normalize.exp).toNat := by
  have hscale : (0 : ℚ) < 2 ^ leadingZeros64 v.significand := by positivity
  rw [units_normalize hpos hv, normalize_shift hpos hv, normalize_eq hpos hv]
  push_cast
  rw [← sub_mul, abs_mul, abs_of_pos hscale]

theorem DiyFp.Within.normalize (h : v.Within x error) (hpos : 0 < v.significand)
    (hv : v.significand < 2 ^ 64) :
    v.normalize.Within x (error * 2 ^ (v.exp - v.normalize.exp).toNat) := by
  unfold Within at h ⊢
  rw [normalize_error hpos hv]
  push_cast
  rw [mul_div_right_comm]
  exact mul_le_mul_of_nonneg_right h (by positivity)

/-- A product with an exact number has the error of the rounding more. -/
theorem DiyFp.Within.mul_exact (h : v.Within x error) (hw : w.units y = w.significand)
    (hv : v.significand < 2 ^ 64) (hwmax : w.significand < 2 ^ 64) :
    (v.mul w).Within (x * y) (error + 4) := by
  obtain ⟨-, hround⟩ := mul_significand hv hwmax
  have hwmax' : (w.significand : ℚ) ≤ 2 ^ 64 := by exact_mod_cast hwmax.le
  have hwpos : (0 : ℚ) ≤ w.significand := Nat.cast_nonneg _
  unfold Within at h ⊢
  have herror : |(v.units x - v.significand) * w.significand / 2 ^ 64| ≤ (error : ℚ) / 8 := by
    rw [abs_div, abs_mul, abs_of_nonneg hwpos, abs_of_pos (show (0 : ℚ) < 2 ^ 64 by norm_num),
      div_le_iff₀ (by norm_num)]
    exact mul_le_mul h hwmax' hwpos (by positivity)
  have hsplit : (v.mul w).units (x * y) - (v.mul w).significand =
      (v.units x - v.significand) * w.significand / 2 ^ 64 +
        (v.significand * w.significand / 2 ^ 64 - (v.mul w).significand) := by
    rw [units_mul, hw]
    ring
  have hsum := abs_add_le ((v.units x - v.significand) * w.significand / 2 ^ 64)
    (v.significand * w.significand / 2 ^ 64 - (v.mul w).significand : ℚ)
  rw [hsplit]
  push_cast
  linarith

/-- A product with a number that is within half a unit has an error that is less than the sum of
the errors and half a unit. -/
theorem DiyFp.Within.mul_close (h : v.Within x error)
    (hw : |w.units y - w.significand| ≤ 1 / 2) (hv : v.significand < 2 ^ 64)
    (hwmax : w.significand < 2 ^ 64) :
    |(v.mul w).units (x * y) - (v.mul w).significand| < (error + 8 : ℕ) / 8 := by
  obtain ⟨-, hround⟩ := mul_significand hv hwmax
  have hvmax : (v.significand : ℚ) < 2 ^ 64 := by exact_mod_cast hv
  have hvpos : (0 : ℚ) ≤ v.significand := Nat.cast_nonneg _
  have hwmax' : (w.significand : ℚ) + 1 ≤ 2 ^ 64 := by exact_mod_cast hwmax
  have hwpos : (0 : ℚ) ≤ w.significand := Nat.cast_nonneg _
  have hunits : |w.units y| ≤ 2 ^ 64 := by
    rw [abs_le] at hw ⊢
    constructor <;> linarith
  unfold Within at h
  have hfirst : |(v.units x - v.significand) * w.units y / 2 ^ 64| ≤ (error : ℚ) / 8 := by
    rw [abs_div, abs_mul, abs_of_pos (show (0 : ℚ) < 2 ^ 64 by norm_num),
      div_le_iff₀ (by norm_num)]
    exact mul_le_mul h hunits (abs_nonneg _) (by positivity)
  have hsecond : |v.significand * (w.units y - w.significand) / 2 ^ 64| < 1 / 2 := by
    rw [abs_div, abs_mul, abs_of_nonneg hvpos, abs_of_pos (show (0 : ℚ) < 2 ^ 64 by norm_num),
      div_lt_iff₀ (by norm_num)]
    have hle := mul_le_mul_of_nonneg_left hw hvpos
    linarith
  have hsplit : (v.mul w).units (x * y) - (v.mul w).significand =
      (v.units x - v.significand) * w.units y / 2 ^ 64 +
        v.significand * (w.units y - w.significand) / 2 ^ 64 +
        (v.significand * w.significand / 2 ^ 64 - (v.mul w).significand) := by
    rw [units_mul]
    ring
  have hsum := abs_add_three ((v.units x - v.significand) * w.units y / 2 ^ 64)
    (v.significand * (w.units y - w.significand) / 2 ^ 64)
    (v.significand * w.significand / 2 ^ 64 - (v.mul w).significand : ℚ)
  rw [hsplit]
  push_cast
  linarith

/-! ## Rounding -/

theorem DiyFp.units_mul_zpow (v : DiyFp) (x : ℚ) (n : ℕ) :
    x = v.units x / 2 ^ n * 2 ^ (v.exp + n) := by
  unfold units
  rw [zpow_add₀ (by norm_num), zpow_natCast, zpow_neg]
  field_simp

/-- What is rounded up is beyond the middle, and what is not is less than a quarter beyond it. -/
theorem roundBits_spec {prec : ℕ} (hpos : 0 < prec) (hprec : prec ≤ 60)
    (h : |v.units x - v.significand| < (error : ℚ) / 8) (herror : error ≤ 2 ^ prec) :
    ∃ m : ℕ, roundBits v error prec = (⟨m, v.exp + prec⟩ : DiyFp).toDouble ∧
      (m = v.significand / 2 ^ prec ∧ (m - 1 / 4 : ℚ) * 2 ^ (v.exp + prec) < x ∨
        m = v.significand / 2 ^ prec + 1 ∧ (m - 1 / 2 : ℚ) * 2 ^ (v.exp + prec) < x) ∧
      x < (m + 3 / 4) * 2 ^ (v.exp + prec) := by
  have hparts := Nat.div_add_mod v.significand (2 ^ prec)
  have hlow := Nat.mod_lt v.significand (Nat.two_pow_pos prec)
  have hmax : 2 ^ prec ≤ 2 ^ 60 := Nat.pow_le_pow_right (by omega) hprec
  have hhalf : 2 * 2 ^ (prec - 1) = 2 ^ prec := by
    rw [← pow_succ']
    congr 1
    omega
  have hunit : (0 : ℚ) < 2 ^ (v.exp + prec) := Lib.BinaryFormat.two_zpow_pos _
  have hpow : (0 : ℚ) < 2 ^ prec := by positivity
  have hx := v.units_mul_zpow x prec
  have hbits : v.significand % 2 ^ prec * 8 % 2 ^ 64 = v.significand % 2 ^ prec * 8 :=
    Nat.mod_eq_of_lt (by omega)
  have hhalfWay : 2 ^ (prec - 1) * 8 % 2 ^ 64 = 2 ^ (prec - 1) * 8 := Nat.mod_eq_of_lt (by omega)
  have hcast : (v.significand : ℚ) =
      2 ^ prec * (v.significand / 2 ^ prec : ℕ) + (v.significand % 2 ^ prec : ℕ) := by
    exact_mod_cast hparts.symm
  have herror' : (error : ℚ) ≤ 2 ^ prec := by exact_mod_cast herror
  have hlow' : ((v.significand % 2 ^ prec : ℕ) : ℚ) < 2 ^ prec := by exact_mod_cast hlow
  have hzero : (0 : ℚ) ≤ (v.significand % 2 ^ prec : ℕ) := Nat.cast_nonneg _
  unfold roundBits DiyFp.shiftRight
  simp only [hbits, hhalfWay]
  rw [abs_lt, hcast] at h
  obtain ⟨hlower, hupper⟩ := h
  split_ifs with hround
  · have hround' : (4 * 2 ^ prec + error : ℚ) ≤ (v.significand % 2 ^ prec : ℕ) * 8 := by
      have hnat : 4 * 2 ^ prec + error ≤ v.significand % 2 ^ prec * 8 := by omega
      exact_mod_cast hnat
    refine ⟨_, rfl, .inr ⟨rfl, ?_⟩, ?_⟩
    · rw [hx]
      refine mul_lt_mul_of_pos_right ?_ hunit
      rw [lt_div_iff₀ hpow]
      push_cast
      linarith
    · rw [hx]
      refine mul_lt_mul_of_pos_right ?_ hunit
      rw [div_lt_iff₀ hpow]
      push_cast
      linarith
  · have hround' : ((v.significand % 2 ^ prec : ℕ) : ℚ) * 8 < 4 * 2 ^ prec + error := by
      have hnat : v.significand % 2 ^ prec * 8 < 4 * 2 ^ prec + error := by omega
      exact_mod_cast hnat
    refine ⟨_, rfl, .inl ⟨rfl, ?_⟩, ?_⟩
    · rw [hx]
      refine mul_lt_mul_of_pos_right ?_ hunit
      rw [lt_div_iff₀ hpow]
      linarith
    · rw [hx]
      refine mul_lt_mul_of_pos_right ?_ hunit
      rw [div_lt_iff₀ hpow]
      linarith

/-- The word is that of the correctly rounded number, or of the one below, and the number is less
than three quarters of the distance to the next word larger. -/
def Nearly (x : ℚ) (word : ℕ) : Prop :=
  (∃ c, double.IsRounded x c ∧ (word = c ∨ word + 1 = c)) ∧
    (word < double.infinity → 4 * x < double.value word + 3 * double.value (word + 1))

/-- The number is near that of a significand with its hidden bit, or of a small one. -/
theorem nearly_toDouble {q : ℕ} (hm : m ≤ 2 ^ 53) (hhidden : 2 ^ 52 ≤ m ∨ q = 0)
    (hlower : (m - 1 / 4 : ℚ) * 2 ^ (-1074 + q : ℤ) < x ∨
      (2 ^ 52 < m ∨ q = 0) ∧ (m - 1 / 2 : ℚ) * 2 ^ (-1074 + q : ℤ) < x)
    (hupper : x < (m + 3 / 4) * 2 ^ (-1074 + q : ℤ)) :
    Nearly x (⟨m, -1074 + q⟩ : DiyFp).toDouble := by
  rw [DiyFp.toDouble_of_hidden hm hhidden]
  exact Lib.BinaryFormat.exists_isRounded_near (f := double) (by decide) hm hhidden hlower hupper

theorem value_zero : double.value 0 = 0 := by
  simp [Lib.BinaryFormat.value, Lib.BinaryFormat.significand, double]

theorem value_one : double.value 1 = 2 ^ (-1074 : ℤ) := by
  simp [Lib.BinaryFormat.value, Lib.BinaryFormat.significand, Lib.BinaryFormat.exponent, double]

/-- What is much less than the smallest number is zero. -/
theorem nearly_zero (hx : 4 * x < 3 * 2 ^ (-1074 : ℤ)) : Nearly x 0 := by
  have hunit := Lib.BinaryFormat.two_zpow_pos (-1074)
  refine ⟨Lib.BinaryFormat.exists_isRounded (Nat.zero_le _) (fun a ha => by omega) fun _ => ?_,
    fun _ => ?_⟩
  · have hmono := Lib.BinaryFormat.value_lt_succ (f := double) 1
    rw [Nat.zero_add, value_one] at *
    linarith
  · rw [value_zero, Nat.zero_add, value_one, zero_add]
    exact hx

theorem nearly_zero_of_lt (hx : 2 * x < 2 ^ (-1074 : ℤ)) : Nearly x 0 := by
  have hunit := Lib.BinaryFormat.two_zpow_pos (-1074)
  exact nearly_zero (by linarith)

theorem diyfpSgndSize_cases (order : ℤ) :
    -1021 ≤ order ∧ diyfpSgndSize order = 53 ∨
    -1074 < order ∧ order < -1021 ∧ (diyfpSgndSize order : ℤ) = order + 1074 ∨
    order ≤ -1074 ∧ diyfpSgndSize order = 0 := by
  unfold diyfpSgndSize
  split_ifs <;> omega

/-- A shift loses less than a unit, and the rest of the error's eighths. -/
theorem shiftRight_error (h : |v.units x - v.significand| < (error : ℚ) / 8) (shift : ℕ) :
    |(v.shiftRight shift).units x - (v.shiftRight shift).significand| <
      ((error / 2 ^ shift + 1 + 8 : ℕ) : ℚ) / 8 := by
  have hpow : (0 : ℚ) < 2 ^ shift := by positivity
  have hunits : (v.shiftRight shift).units x = v.units x / 2 ^ shift := by
    unfold DiyFp.units DiyFp.shiftRight
    simp only
    rw [neg_add, zpow_add₀ (by norm_num), zpow_neg 2 (shift : ℤ), zpow_natCast]
    ring
  have hparts := Nat.div_add_mod v.significand (2 ^ shift)
  have hlow := Nat.mod_lt v.significand (Nat.two_pow_pos shift)
  have herror := Nat.lt_mul_div_succ error (Nat.two_pow_pos shift)
  have hcast : (v.significand : ℚ) =
      2 ^ shift * (v.significand / 2 ^ shift : ℕ) + (v.significand % 2 ^ shift : ℕ) := by
    exact_mod_cast hparts.symm
  have herror' : (error : ℚ) < 2 ^ shift * ((error / 2 ^ shift : ℕ) + 1) := by
    exact_mod_cast herror
  have hlow' : ((v.significand % 2 ^ shift : ℕ) : ℚ) < 2 ^ shift := by exact_mod_cast hlow
  have hzero : (0 : ℚ) ≤ (v.significand % 2 ^ shift : ℕ) := Nat.cast_nonneg _
  rw [abs_lt, hcast] at h
  obtain ⟨hlower, hupper⟩ := h
  rw [hunits, abs_lt]
  unfold DiyFp.shiftRight
  simp only
  push_cast
  constructor
  · rw [lt_sub_iff_add_lt, lt_div_iff₀ hpow]
    linarith
  · rw [sub_lt_iff_lt_add, div_lt_iff₀ hpow]
    linarith

theorem nearly_roundBits {prec q : ℕ} (hpos : 0 < prec) (hprec : prec ≤ 60)
    (h : |v.units x - v.significand| < (error : ℚ) / 8) (herror : error ≤ 2 ^ prec)
    (hexp : v.exp + prec = -1074 + q) (hmax : v.significand / 2 ^ prec < 2 ^ 53)
    (hhidden : 2 ^ 52 ≤ v.significand / 2 ^ prec ∨ q = 0) :
    Nearly x (roundBits v error prec) := by
  obtain ⟨m, hround, hlower, hupper⟩ := roundBits_spec hpos hprec h herror
  rw [hexp] at hround hlower hupper
  rw [hround]
  rcases hlower with ⟨rfl, hlower⟩ | ⟨rfl, hlower⟩
  · exact nearly_toDouble hmax.le hhidden (.inl hlower) hupper
  · refine nearly_toDouble hmax (hhidden.imp_left (by omega)) (.inr ⟨?_, hlower⟩) hupper
    exact hhidden.imp_left (by omega)

/-- The bits are cut off at the place that the exponent allows. -/
theorem nearly_roundValue (hlow : 2 ^ 63 ≤ v.significand) (hhigh : v.significand < 2 ^ 64)
    (h : |v.units x - v.significand| < (error : ℚ) / 8) (herror : error ≤ 180) :
    Nearly x (roundValue v error) := by
  have hshift := shiftRight_error h
  have hdiv : ∀ shift, error / 2 ^ shift + 1 + 8 ≤ 189 := by
    intro shift
    have hle := Nat.div_le_self error (2 ^ shift)
    omega
  have hcut : ∀ prec, 11 ≤ prec → v.significand / 2 ^ prec < 2 ^ 53 := by
    intro prec hprec
    have hpow := Nat.pow_le_pow_right (show 0 < 2 by omega) hprec
    rw [Nat.div_lt_iff_lt_mul (Nat.two_pow_pos prec)]
    omega
  have hcut' : ∀ shift, (v.shiftRight shift).significand / 2 ^ 60 < 2 ^ 53 := by
    intro shift
    have hle := Nat.div_le_self v.significand (2 ^ shift)
    unfold DiyFp.shiftRight
    simp only
    omega
  unfold roundValue
  simp only
  rcases diyfpSgndSize_cases (64 + v.exp) with ⟨horder, hsize⟩ | ⟨hgt, horder, hsize⟩ |
    ⟨horder, hsize⟩
  · rw [hsize, if_neg (by omega)]
    exact nearly_roundBits (q := (v.exp + 1085).toNat) (by omega) (by omega) h (by omega) (by omega)
      (hcut 11 le_rfl) (.inl (by omega))
  · obtain ⟨size, hsize'⟩ : ∃ size, diyfpSgndSize (64 + v.exp) = size := ⟨_, rfl⟩
    rw [hsize'] at hsize ⊢
    by_cases hsmall : 64 ≤ 64 - size + 3
    · rw [if_pos hsmall, show 64 - size - (64 - size + 3 - 64 + 1) = 60 by omega]
      refine nearly_roundBits (q := 0) (by omega) le_rfl (hshift _)
        ((hdiv _).trans (by norm_num)) ?_ (hcut' _) (.inr rfl)
      unfold DiyFp.shiftRight
      simp only
      omega
    · have hpow := Nat.pow_le_pow_right (show 0 < 2 by omega) (show 12 ≤ 64 - size by omega)
      rw [if_neg hsmall]
      exact nearly_roundBits (q := 0) (by omega) (by omega) h (by omega) (by omega)
        (hcut _ (by omega)) (.inr rfl)
  · rw [hsize, if_pos (by omega)]
    have hexp : (v.shiftRight 4).exp + (60 : ℕ) = 64 + v.exp := by
      unfold DiyFp.shiftRight
      simp only
      omega
    rcases horder.lt_or_eq with hlt | heq
    · obtain ⟨m, hround, hlower, -⟩ :=
        @roundBits_spec _ _ _ 60 (by omega) le_rfl (hshift 4) ((hdiv 4).trans (by norm_num))
      have hm : m ≤ 1 := by
        have hzero : (v.shiftRight 4).significand / 2 ^ 60 = 0 := by
          unfold DiyFp.shiftRight
          simp only
          omega
        rcases hlower with ⟨hm, -⟩ | ⟨hm, -⟩ <;> omega
      rw [hexp] at hround
      rw [hround, DiyFp.toDouble_of_small (by omega) hlt]
      apply nearly_zero
      have hhigh' : (v.significand : ℚ) ≤ 2 ^ 64 := by exact_mod_cast hhigh.le
      have herror' : (error : ℚ) ≤ 180 := by exact_mod_cast herror
      have hunits : v.units x < 3 / 2 * 2 ^ 64 := by
        have hupper := (abs_lt.mp h).2
        linarith
      have hunit := Lib.BinaryFormat.two_zpow_pos v.exp
      have hscale : (2 : ℚ) ^ v.exp * 2 ^ 65 ≤ 2 ^ (-1074 : ℤ) := by
        rw [← zpow_natCast, ← zpow_add₀ (by norm_num)]
        exact zpow_le_zpow_right₀ (by norm_num) (by push_cast; omega)
      have hx : x = v.units x * 2 ^ v.exp := by
        simpa using v.units_mul_zpow x 0
      have hmul := mul_lt_mul_of_pos_right hunits hunit
      rw [hx]
      linarith
    · exact nearly_roundBits (q := 0) (by omega) le_rfl (hshift 4) ((hdiv 4).trans (by norm_num))
        (hexp.trans (by omega)) (hcut' 4) (.inr rfl)

/-! ## The multiplications -/

/-- The digits as they are read, with the error in eighths. -/
theorem Reads.normalize {significand remaining : ℕ} (h : Reads digits significand remaining) :
    let v : DiyFp := ⟨significand, 0⟩
    let error := (if remaining = 0 then 0 else 4) * 2 ^ (v.exp - v.normalize.exp).toNat
    v.normalize.Within (digitsValue digits / 10 ^ remaining) error ∧ error ≤ 32 ∧
      2 ^ 63 ≤ v.normalize.significand ∧ v.normalize.significand < 2 ^ 64 := by
  intro v error
  have hbounds := leadingZeros64_bounds h.pos h.max
  have hnormalize : v.normalize.significand = significand * 2 ^ leadingZeros64 significand := by
    rw [DiyFp.normalize_eq (v := v) h.pos h.max]
  have hwithin : v.Within (digitsValue digits / 10 ^ remaining)
      (if remaining = 0 then 0 else 4) := by
    have hnear := h.near
    unfold DiyFp.Within DiyFp.units
    rw [show -v.exp = 0 from rfl, zpow_zero, mul_one]
    split_ifs with hremaining
    · rw [hremaining, pow_zero, div_one, show v.significand = significand from rfl,
        h.exact hremaining, sub_self, abs_zero, Nat.cast_zero, zero_div]
    · refine hnear.trans ?_
      norm_num
  refine ⟨hwithin.normalize h.pos h.max, ?_, by omega, by omega⟩
  by_cases hremaining : remaining = 0
  · have hzero : error = 0 := by
      change (if remaining = 0 then 0 else 4) * _ = 0
      rw [if_pos hremaining, Nat.zero_mul]
    omega
  · have hzeros := leadingZeros64_le (h.many hremaining).2
    have hshift : (v.exp - v.normalize.exp).toNat = leadingZeros64 significand :=
      DiyFp.normalize_shift (v := v) h.pos h.max
    have hpow := Nat.pow_le_pow_right (show 0 < 2 by omega) hzeros
    change (if remaining = 0 then 0 else 4) * 2 ^ (v.exp - v.normalize.exp).toNat ≤ 32
    rw [if_neg hremaining, hshift]
    omega

/-- A product of few decimal digits with a power of ten has no more than 64 bits. -/
theorem dvd_product {a b i j : ℕ} (hn : 0 < n) (hsum : a * 10 ^ n < 2 ^ 64)
    (ha : 2 ^ 63 ≤ a * 2 ^ i) (hb : b = 10 ^ n * 2 ^ j) (hb' : 2 ^ 63 ≤ b) :
    2 ^ 64 ∣ a * 2 ^ i * b := by
  obtain ⟨n, rfl⟩ := Nat.exists_eq_add_of_lt hn
  rw [Nat.zero_add] at hsum hb
  have hmul : a * 2 ^ i * b = a * 10 ^ (n + 1) * 2 ^ (i + j) := by
    rw [hb, pow_add]
    ring
  have hle : 2 ^ 63 * 2 ^ 63 ≤ a * 10 ^ (n + 1) * 2 ^ (i + j) := hmul ▸ Nat.mul_le_mul ha hb'
  have hexp : 63 ≤ i + j := by
    by_contra hlt
    have hpow := Nat.pow_le_pow_right (show 0 < 2 by omega) (show i + j ≤ 62 by omega)
    have hless : a * 10 ^ (n + 1) * 2 ^ (i + j) < 2 ^ 64 * 2 ^ 62 :=
      Nat.mul_lt_mul_of_lt_of_le hsum hpow (Nat.two_pow_pos 62)
    omega
  obtain ⟨k, hk⟩ := Nat.exists_eq_add_of_le hexp
  refine ⟨a * (5 * 10 ^ n) * 2 ^ k, ?_⟩
  rw [hmul, hk, pow_add 2 63 k, pow_succ 10 n]
  ring

/-- The multiplication with a small power is exact or rounded once. -/
theorem adjust_spec {significand remaining : ℕ} {decExp : ℤ}
    (h : Reads digits significand remaining) (hdigits : ∀ c ∈ digits, isDigit c = true)
    (hle : decExp ≤ exp) (hlt : exp < decExp + 8) :
    let v : DiyFp := ⟨significand, 0⟩
    let error := (if remaining = 0 then 0 else 4) * 2 ^ (v.exp - v.normalize.exp).toNat
    ∃ adjusted, adjust v.normalize error digits.length exp decExp = .ok adjusted ∧
      adjusted.1.Within (digitsValue digits / 10 ^ remaining * 10 ^ (exp - decExp)) adjusted.2 ∧
      adjusted.2 ≤ 36 ∧ 2 ^ 62 ≤ adjusted.1.significand ∧ adjusted.1.significand < 2 ^ 64 := by
  intro v error
  obtain ⟨hwithin, herror, hlow, hhigh⟩ := h.normalize
  unfold adjust
  by_cases hsame : decExp = exp
  · rw [if_neg (not_not.mpr hsame), hsame, sub_self, zpow_zero, mul_one]
    exact ⟨_, rfl, hwithin, herror.trans (by norm_num), le_trans (by norm_num) hlow, hhigh⟩
  · obtain ⟨n, hn⟩ : ∃ n : ℕ, exp - decExp = n := ⟨(exp - decExp).toNat, by omega⟩
    obtain ⟨power, hpower, hlow', hhigh', z, hz, hexp⟩ :=
      adjustPow10_spec (n := n) (by omega) (by omega)
    have hunits : power.units (10 ^ n) = power.significand := by
      unfold DiyFp.units
      rw [hexp, neg_neg, zpow_natCast, hz]
      push_cast
      rfl
    have hmin : 2 ^ 62 ≤ (v.normalize.mul power).significand :=
      DiyFp.le_mul hlow hhigh hlow' hhigh' (by norm_num)
    have hmax := (DiyFp.mul_significand hhigh hhigh').1
    rw [if_pos hsame, hn, hpower, zpow_natCast]
    refine ⟨_, rfl, ?_, ?_, hmin, hmax⟩
    · simp only
      split_ifs with hlength
      · exact hwithin.mul_exact hunits hhigh hhigh'
      · have hremaining : remaining = 0 := by
          by_contra hne
          have hmany := (h.many hne).1
          omega
        have hzero : error = 0 := by
          change (if remaining = 0 then 0 else 4) * _ = 0
          rw [if_pos hremaining, Nat.zero_mul]
        have hexact : v.normalize.units (digitsValue digits / 10 ^ remaining) =
            v.normalize.significand := by
          have hwithin' := hwithin
          unfold DiyFp.Within at hwithin'
          change _ ≤ ((error : ℕ) : ℚ) / 8 at hwithin'
          rw [hzero, Nat.cast_zero, zero_div] at hwithin'
          exact sub_eq_zero.mp (abs_nonpos_iff.mp hwithin')
        have hsum : significand * 10 ^ n < 2 ^ 64 := by
          have hpow := Nat.pow_le_pow_right (show 0 < 10 by omega)
            (show digits.length + n ≤ 19 by omega)
          have hless := digitsValue_lt hdigits
          rw [h.exact hremaining]
          calc digitsValue digits * 10 ^ n < 10 ^ digits.length * 10 ^ n :=
                Nat.mul_lt_mul_of_pos_right hless (by positivity)
            _ = 10 ^ (digits.length + n) := (pow_add 10 _ n).symm
            _ ≤ 10 ^ 19 := hpow
            _ < 2 ^ 64 := by norm_num
        have hnormalize := DiyFp.normalize_eq (v := v) h.pos h.max
        have hdvd : 2 ^ 64 ∣ v.normalize.significand * power.significand := by
          rw [hnormalize] at hlow ⊢
          exact dvd_product (by omega) hsum hlow hz hlow'
        unfold DiyFp.Within
        rw [DiyFp.units_mul, hexact, hunits, DiyFp.mul_of_dvd hdvd, sub_self, abs_zero]
        positivity
    · have herror' : error ≤ 32 := herror
      simp only
      split_ifs <;> omega

theorem zpow_lt_least : 2 * ((2 ^ 64 : ℚ) * 10 ^ (-349 : ℤ)) < 2 ^ (-1074 : ℤ) := by
  have hnat : 2 ^ 1139 < 10 ^ 349 := by decide +kernel
  have hpow : (2 : ℚ) ^ 1139 < 10 ^ 349 := by exact_mod_cast hnat
  have hten : (10 : ℚ) ^ (-349 : ℤ) = (10 ^ 349)⁻¹ := by
    rw [zpow_neg]
    rfl
  have htwo : (2 : ℚ) ^ (-1074 : ℤ) * 2 ^ 1139 = 2 * 2 ^ 64 := by
    rw [← pow_succ', ← zpow_natCast, ← zpow_natCast, ← zpow_add₀ (by norm_num)]
    rfl
  rw [hten, ← mul_assoc, ← div_eq_mul_inv, div_lt_iff₀ (by positivity), ← htwo]
  exact mul_lt_mul_of_pos_left hpow (Lib.BinaryFormat.two_zpow_pos _)

/-- `njs_diyfp_strtod` gives the nearest double or the one below. -/
theorem diyfpStrtod_nearly (hdigits : ∀ c ∈ digits, isDigit c = true)
    (hpos : 0 < digitsValue digits) (hexp : exp + digits.length ≤ 309) :
    ∃ word, diyfpStrtod digits exp = .ok word ∧ Nearly (digitsValue digits * 10 ^ exp) word := by
  obtain ⟨significand, remaining, hreads⟩ := exists_reads hdigits hpos
  have hless := hreads.less
  have hvalue : (digitsValue digits : ℚ) * 10 ^ exp =
      digitsValue digits / 10 ^ remaining * 10 ^ (exp + remaining) := by
    rw [zpow_add₀ (by norm_num), zpow_natCast]
    field_simp
  unfold diyfpStrtod
  simp only [hreads.read]
  by_cases htiny : exp + remaining < -348
  · rw [if_pos htiny]
    refine ⟨0, rfl, nearly_zero_of_lt ?_⟩
    have hnear := (abs_le.mp hreads.near).2
    have hmax : (significand : ℚ) + 1 ≤ 2 ^ 64 := by exact_mod_cast hreads.max
    have hle : (digitsValue digits : ℚ) / 10 ^ remaining * 10 ^ (exp + remaining) ≤
        2 ^ 64 * 10 ^ (-349 : ℤ) := by
      apply mul_le_mul (by linarith) _ (by positivity) (by positivity)
      exact zpow_le_zpow_right₀ (by norm_num) (by omega)
    have hleast := zpow_lt_least
    rw [hvalue]
    linarith
  · rw [if_neg htiny]
    obtain ⟨power, hpower, hclose, hle, hlt⟩ :=
      cachedPowerDec_spec (e := exp + remaining) (by omega) (by omega)
    obtain ⟨adjusted, hadjust, hwithin, herror, hlow, hhigh⟩ :=
      adjust_spec hreads hdigits hle hlt
    rw [hpower, ok_bind, hadjust, ok_bind]
    refine ⟨_, rfl, ?_⟩
    have hproduct := hwithin.mul_close (w := power.1) (y := 10 ^ power.2) hclose.error hhigh
      hclose.2.1
    rw [mul_assoc, ← zpow_add₀ (by norm_num), sub_add_cancel, ← hvalue] at hproduct
    have hmin : 2 ^ 61 ≤ (adjusted.1.mul power.1).significand :=
      DiyFp.le_mul hlow hhigh hclose.1 hclose.2.1 (by norm_num)
    have hmax := (DiyFp.mul_significand hhigh hclose.2.1).1
    have hpos : 0 < (adjusted.1.mul power.1).significand := by omega
    have hbounds := leadingZeros64_bounds hpos hmax
    have hnormalize := DiyFp.normalize_eq hpos hmax
    have hshift := DiyFp.normalize_shift hpos hmax
    have hzeros := leadingZeros64_le hmin
    have hpow := Nat.pow_le_pow_right (show 0 < 2 by omega) hzeros
    have hextra : (if adjusted.2 ≠ 0 then 1 else 0) ≤ 1 := by split_ifs <;> omega
    refine nearly_roundValue (by rw [hnormalize]; exact hbounds.1)
      (by rw [hnormalize]; exact hbounds.2) ?_ ?_
    · rw [DiyFp.normalize_error hpos hmax]
      push_cast
      rw [mul_div_right_comm]
      refine mul_lt_mul_of_pos_right (hproduct.trans_le ?_) (by positivity)
      push_cast
      have hnonneg : (0 : ℚ) ≤ if adjusted.2 ≠ 0 then 1 else 0 := by split_ifs <;> norm_num
      linarith
    · rw [hshift]
      calc _ ≤ 45 * 2 ^ 2 := Nat.mul_le_mul (by omega) hpow
        _ = 180 := by norm_num

/-! ## The limits -/

/-- The digits between the zeros that are trimmed. -/
theorem trim_spec (hdigits : ∀ c ∈ digits, isDigit c = true) :
    let left := digits.dropWhile (· = 48)
    let right := left.rdropWhile (· = 48)
    right.length ≤ left.length ∧ left.length ≤ digits.length ∧
      digitsValue digits = digitsValue right * 10 ^ (left.length - right.length) ∧
      (∀ c ∈ right, isDigit c = true) ∧
      (right ≠ [] → 10 ^ (right.length - 1) ≤ digitsValue right) := by
  intro left right
  have hleft : left <:+ digits := List.dropWhile_suffix _
  have hright : right <+: left := List.rdropWhile_prefix _ _
  refine ⟨hright.length_le, hleft.length_le, ?_, ?_, fun hne => ?_⟩
  · rw [← digitsValue_dropWhile digits]
    exact digitsValue_rdropWhile left
  · exact fun c hc => hdigits c (hleft.subset (hright.subset hc))
  · obtain ⟨c, rest, hcons⟩ := List.exists_cons_of_ne_nil hne
    have hmem : c ∈ right := hcons ▸ List.mem_cons_self
    have hdigit := hdigits c (hleft.subset (hright.subset hmem))
    have hrange := toNat_of_isDigit hdigit
    have hadd := digit_add hdigit
    obtain ⟨tail, htail⟩ := hright
    have hhead : left.head? = some c := by rw [← htail, hcons]; rfl
    have hnot := List.head?_dropWhile_not (fun c : UInt8 => decide (c = 48)) digits
    rw [show digits.dropWhile (fun c => decide (c = 48)) = left from rfl, hhead] at hnot
    have hzero : c ≠ 48 := by simpa using hnot
    have hpos : 1 ≤ (c - 48).toNat := by
      have hne : c.toNat ≠ 48 := fun h => hzero (UInt8.toNat_inj.mp h)
      omega
    rw [hcons, digitsValue_cons, List.length_cons, Nat.add_sub_cancel]
    calc 10 ^ rest.length ≤ (c - 48).toNat * 10 ^ rest.length :=
          Nat.le_mul_of_pos_left _ hpos
      _ ≤ _ := Nat.le_add_right _ _

/-- None of the sums of `njs_strtod_internal` overflows. -/
theorem strtodInternal_eq (hlength : digits.length ≤ 128) (hmin : -2 ^ 31 ≤ exp) :
    let left := digits.dropWhile (· = 48)
    let right := left.rdropWhile (· = 48)
    let shift : ℕ := left.length - right.length
    strtodInternal digits exp =
      if right = [] then .ok 0
      else if 310 - shift - right.length ≤ exp then .ok double.infinity
      else if exp ≤ -324 - shift - right.length then .ok 0
      else diyfpStrtod right (exp + shift) := by
  intro left right shift
  have hleft : left.length ≤ digits.length := (List.dropWhile_suffix _).length_le
  have hright : right.length ≤ left.length := (List.rdropWhile_prefix _ _).length_le
  have hshift : (left.length : ℤ) - right.length = shift := by omega
  unfold strtodInternal
  simp only
  rw [show digits.dropWhile (fun c => decide (c = 48)) = left from rfl,
    show left.rdropWhile (fun c => decide (c = 48)) = right from rfl, hshift,
    addInt_ok (by omega) (by omega), ok_bind, addInt_ok (by omega) (by omega), ok_bind,
    addInt_ok (by omega) (by omega), ok_bind, addInt_ok (by omega) (by omega), ok_bind,
    addInt_ok (by omega) (by omega), ok_bind]
  by_cases hempty : right = []
  · rw [if_pos hempty, if_pos (List.isEmpty_iff.mpr hempty)]
  · rw [if_neg hempty, if_neg (mt List.isEmpty_iff.mp hempty),
      show (309 : ℤ) + -shift + -right.length + 1 = 310 - shift - right.length by ring,
      show (-324 : ℤ) + -shift + -right.length = -324 - shift - right.length by ring]
    split_ifs with hlarge hsmall
    · rfl
    · rfl
    · rw [addInt_ok (by omega) (by omega), ok_bind]

theorem value_infinity : double.value double.infinity = 2 ^ (1024 : ℤ) := by
  have hvalue := Lib.BinaryFormat.value_of_significand (f := double) (m := 2 ^ 52) (q := 2046)
    (by decide) (.inl le_rfl)
  have hword : 2 ^ 52 + 2046 * 2 ^ double.fraction = double.infinity := by decide
  rw [hword] at hvalue
  rw [hvalue, Nat.cast_pow, Nat.cast_ofNat, ← zpow_natCast, ← zpow_add₀ (by norm_num)]
  rfl

theorem zpow_infinity_lt : (2 : ℚ) ^ (1024 : ℤ) < 10 ^ (309 : ℤ) := by
  have hnat : 2 ^ 1024 < 10 ^ 309 := by decide +kernel
  exact_mod_cast hnat

theorem zpow_lt_double : 2 * (10 : ℚ) ^ (-324 : ℤ) < 2 ^ (-1074 : ℤ) := by
  have hnat : 2 ^ 1075 < 10 ^ 324 := by decide +kernel
  have hpow : (2 : ℚ) ^ 1075 < 10 ^ 324 := by exact_mod_cast hnat
  have hlt := inv_strictAnti₀ (by positivity) hpow
  rw [pow_succ 2, mul_inv, ← div_eq_mul_inv, lt_div_iff₀ (by norm_num), mul_comm] at hlt
  rw [zpow_neg, zpow_neg]
  exact hlt

/-- What is beyond infinity is rounded to it. -/
theorem nearly_infinity (hx : (2 : ℚ) ^ (1024 : ℤ) < x) : Nearly x double.infinity := by
  refine ⟨Lib.BinaryFormat.exists_isRounded le_rfl (fun a ha => ?_) fun h => by omega,
    fun h => absurd h (Nat.lt_irrefl _)⟩
  have hlt := Lib.BinaryFormat.value_lt_succ (f := double) a
  rw [ha] at hlt
  rw [value_infinity] at hlt ⊢
  linarith

/-- `njs_strtod_internal` gives the nearest double or the one below. -/
theorem nearly_strtodInternal (hdigits : ∀ c ∈ digits, isDigit c = true)
    (hlength : digits.length ≤ 128) (hmin : -2 ^ 31 ≤ exp) :
    ∃ word, strtodInternal digits exp = .ok word ∧ Nearly (digitsValue digits * 10 ^ exp) word := by
  have heq := strtodInternal_eq hlength hmin
  obtain ⟨hright, hleft, hvalue, hdigits', hfirst⟩ := trim_spec hdigits
  simp only at heq hright hleft hvalue hdigits' hfirst
  generalize (digits.dropWhile fun c => decide (c = 48)).rdropWhile
    (fun c => decide (c = 48)) = right at *
  generalize (digits.dropWhile fun c => decide (c = 48)).length - right.length = shift at *
  have hscale : (digitsValue digits : ℚ) * 10 ^ exp = digitsValue right * 10 ^ (exp + shift) := by
    rw [hvalue, zpow_add₀ (by norm_num), zpow_natCast]
    push_cast
    ring
  rw [heq, hscale]
  split_ifs with hempty hlarge hsmall
  · refine ⟨0, rfl, nearly_zero_of_lt ?_⟩
    rw [hempty, show digitsValue [] = 0 from rfl, Nat.cast_zero, zero_mul, mul_zero]
    exact Lib.BinaryFormat.two_zpow_pos _
  · refine ⟨_, rfl, nearly_infinity (zpow_infinity_lt.trans_le ?_)⟩
    have hpos := List.length_pos_iff.mpr hempty
    have hlow : (10 : ℚ) ^ (right.length - 1) ≤ digitsValue right := by
      exact_mod_cast hfirst hempty
    calc (10 : ℚ) ^ (309 : ℤ) ≤ 10 ^ ((right.length - 1 : ℕ) + (exp + shift)) :=
          zpow_le_zpow_right₀ (by norm_num) (by omega)
      _ = 10 ^ (right.length - 1) * 10 ^ (exp + shift) := by
          rw [zpow_add₀ (by norm_num), zpow_natCast]
      _ ≤ digitsValue right * 10 ^ (exp + shift) :=
          mul_le_mul_of_nonneg_right hlow (zpow_nonneg (by norm_num) _)
  · have hless : (digitsValue right : ℚ) < 10 ^ right.length := by
      exact_mod_cast digitsValue_lt hdigits'
    have hlt : (digitsValue right : ℚ) * 10 ^ (exp + shift) < 10 ^ (-324 : ℤ) :=
      calc (digitsValue right : ℚ) * 10 ^ (exp + shift)
          < 10 ^ right.length * 10 ^ (exp + shift) :=
            mul_lt_mul_of_pos_right hless (zpow_pos (by norm_num) _)
        _ = 10 ^ ((right.length : ℤ) + (exp + shift)) := by
            rw [zpow_add₀ (by norm_num) (right.length : ℤ), zpow_natCast]
        _ ≤ 10 ^ (-324 : ℤ) := zpow_le_zpow_right₀ (by norm_num) (by omega)
    have hleast := zpow_lt_double
    exact ⟨_, rfl, nearly_zero_of_lt (by linarith)⟩
  · have hpos : 0 < digitsValue right := lt_of_lt_of_le (by positivity) (hfirst hempty)
    exact diyfpStrtod_nearly hdigits' hpos (by omega)

/-- `njs_strtod_internal` gives the nearest double or the one below. It is zero only where the
nearest one is zero or the smallest, and infinity only for a number beyond the largest one. -/
theorem strtodInternal_nearest_or_below (hdigits : ∀ c ∈ digits, isDigit c = true)
    (hlength : digits.length ≤ 128) (hmin : -2 ^ 31 ≤ exp) :
    ∃ word c, strtodInternal digits exp = .ok word ∧
      double.IsRounded (digitsValue digits * 10 ^ exp) c ∧ (word = c ∨ word + 1 = c) ∧
      (word = 0 → c ≤ 1) ∧
      (word = double.infinity →
        double.value (double.infinity - 1) < digitsValue digits * 10 ^ exp) := by
  obtain ⟨word, hword, ⟨c, hrounded, hnear⟩, -⟩ := nearly_strtodInternal hdigits hlength hmin
  refine ⟨word, c, hword, hrounded, hnear, fun hzero => by omega, ?_⟩
  rintro rfl
  have hmax := hrounded.le_infinity
  obtain rfl : c = double.infinity := by omega
  exact hrounded.lt (by decide)

/-- The number 1.5. -/
theorem strtodInternal_nearest_or_below_fifteen :
    ∃ word c, strtodInternal [49, 53] (-1) = .ok word ∧
      double.IsRounded (digitsValue [49, 53] * 10 ^ (-1 : ℤ)) c ∧ (word = c ∨ word + 1 = c) ∧
      (word = 0 → c ≤ 1) ∧
      (word = double.infinity →
        double.value (double.infinity - 1) < digitsValue [49, 53] * 10 ^ (-1 : ℤ)) :=
  @strtodInternal_nearest_or_below [49, 53] (-1) (List.all_eq_true.mp rfl) (by decide) (by decide)

end Njs.Decimal
