import Njs.Decimal.Scan
import Njs.Lib.BinaryFormat
import Mathlib.Algebra.Order.Field.Basic
import Mathlib.Tactic.Positivity

/-!
# Numbers with 64 bits

An `njs_diyfp_t` is a significand of 64 bits with an exponent of two. Powers of ten are cached as
such numbers, each within half a unit of its last place.
-/

namespace Njs.Decimal

/-- The format of doubles. -/
def double : Lib.BinaryFormat where
  fraction := 52
  least := -1074
  top := 2047

/-- `njs_diyfp_t`. -/
structure DiyFp where
  significand : ℕ
  exp : ℤ

variable {v w : DiyFp} {m n : ℕ} {e : ℤ}

/-- The exact value. -/
def DiyFp.value (v : DiyFp) : ℚ := v.significand * 2 ^ v.exp

/-- `njs_leading_zeros64`. -/
def leadingZeros64 (x : ℕ) : ℕ := if x = 0 then 64 else 63 - Nat.log2 x

/-- `njs_diyfp_shift_left`. -/
def DiyFp.shiftLeft (v : DiyFp) (shift : ℕ) : DiyFp :=
  ⟨v.significand * 2 ^ shift % 2 ^ 64, v.exp - shift⟩

/-- `njs_diyfp_shift_right`. -/
def DiyFp.shiftRight (v : DiyFp) (shift : ℕ) : DiyFp :=
  ⟨v.significand / 2 ^ shift, v.exp + shift⟩

/-- `njs_diyfp_normalize`. -/
def DiyFp.normalize (v : DiyFp) : DiyFp := v.shiftLeft (leadingZeros64 v.significand)

/-- `njs_diyfp_mul`. -/
def DiyFp.mul (lhs rhs : DiyFp) : DiyFp :=
  let u128 := lhs.significand * rhs.significand
  let h := u128 / 2 ^ 64
  let l := u128 % 2 ^ 64
  ⟨if 2 ^ 63 ≤ l then (h + 1) % 2 ^ 64 else h, lhs.exp + rhs.exp + 64⟩

/-- The first loop of `njs_diyfp2d`. -/
def shiftDown (significand : ℕ) (exp : ℤ) : ℕ × ℤ :=
  if 2 ^ 52 + (2 ^ 52 - 1) < significand then shiftDown (significand / 2) (exp + 1)
  else (significand, exp)
termination_by significand

/-- The second loop of `njs_diyfp2d`. -/
def shiftUp (significand : ℕ) (exp : ℤ) : ℕ × ℤ :=
  if -1074 < exp ∧ significand / 2 ^ 52 % 2 = 0 then
    shiftUp (significand * 2 % 2 ^ 64) (exp - 1)
  else (significand, exp)
termination_by (exp + 1074).toNat

/-- `njs_diyfp2d`, the word of the double. -/
def DiyFp.toDouble (v : DiyFp) : ℕ :=
  let v := shiftDown v.significand v.exp
  if 972 ≤ v.2 then double.infinity
  else if v.2 < -1074 then 0
  else
    let v := shiftUp v.1 v.2
    let biased := if v.2 = -1074 ∧ v.1 / 2 ^ 52 % 2 = 0 then 0 else (v.2 + 1075).toNat
    v.1 % 2 ^ 52 + biased * 2 ^ 52

/-- `njs_cached_powers`, with the decimal exponents. -/
def cachedPowers : List (DiyFp × ℤ) :=
  [(⟨0xfa8fd5a0081c0288, -1220⟩, -348), (⟨0xbaaee17fa23ebf76, -1193⟩, -340),
   (⟨0x8b16fb203055ac76, -1166⟩, -332), (⟨0xcf42894a5dce35ea, -1140⟩, -324),
   (⟨0x9a6bb0aa55653b2d, -1113⟩, -316), (⟨0xe61acf033d1a45df, -1087⟩, -308),
   (⟨0xab70fe17c79ac6ca, -1060⟩, -300), (⟨0xff77b1fcbebcdc4f, -1034⟩, -292),
   (⟨0xbe5691ef416bd60c, -1007⟩, -284), (⟨0x8dd01fad907ffc3c, -980⟩, -276),
   (⟨0xd3515c2831559a83, -954⟩, -268), (⟨0x9d71ac8fada6c9b5, -927⟩, -260),
   (⟨0xea9c227723ee8bcb, -901⟩, -252), (⟨0xaecc49914078536d, -874⟩, -244),
   (⟨0x823c12795db6ce57, -847⟩, -236), (⟨0xc21094364dfb5637, -821⟩, -228),
   (⟨0x9096ea6f3848984f, -794⟩, -220), (⟨0xd77485cb25823ac7, -768⟩, -212),
   (⟨0xa086cfcd97bf97f4, -741⟩, -204), (⟨0xef340a98172aace5, -715⟩, -196),
   (⟨0xb23867fb2a35b28e, -688⟩, -188), (⟨0x84c8d4dfd2c63f3b, -661⟩, -180),
   (⟨0xc5dd44271ad3cdba, -635⟩, -172), (⟨0x936b9fcebb25c996, -608⟩, -164),
   (⟨0xdbac6c247d62a584, -582⟩, -156), (⟨0xa3ab66580d5fdaf6, -555⟩, -148),
   (⟨0xf3e2f893dec3f126, -529⟩, -140), (⟨0xb5b5ada8aaff80b8, -502⟩, -132),
   (⟨0x87625f056c7c4a8b, -475⟩, -124), (⟨0xc9bcff6034c13053, -449⟩, -116),
   (⟨0x964e858c91ba2655, -422⟩, -108), (⟨0xdff9772470297ebd, -396⟩, -100),
   (⟨0xa6dfbd9fb8e5b88f, -369⟩, -92), (⟨0xf8a95fcf88747d94, -343⟩, -84),
   (⟨0xb94470938fa89bcf, -316⟩, -76), (⟨0x8a08f0f8bf0f156b, -289⟩, -68),
   (⟨0xcdb02555653131b6, -263⟩, -60), (⟨0x993fe2c6d07b7fac, -236⟩, -52),
   (⟨0xe45c10c42a2b3b06, -210⟩, -44), (⟨0xaa242499697392d3, -183⟩, -36),
   (⟨0xfd87b5f28300ca0e, -157⟩, -28), (⟨0xbce5086492111aeb, -130⟩, -20),
   (⟨0x8cbccc096f5088cc, -103⟩, -12), (⟨0xd1b71758e219652c, -77⟩, -4),
   (⟨0x9c40000000000000, -50⟩, 4), (⟨0xe8d4a51000000000, -24⟩, 12), (⟨0xad78ebc5ac620000, 3⟩, 20),
   (⟨0x813f3978f8940984, 30⟩, 28), (⟨0xc097ce7bc90715b3, 56⟩, 36), (⟨0x8f7e32ce7bea5c70, 83⟩, 44),
   (⟨0xd5d238a4abe98068, 109⟩, 52), (⟨0x9f4f2726179a2245, 136⟩, 60),
   (⟨0xed63a231d4c4fb27, 162⟩, 68), (⟨0xb0de65388cc8ada8, 189⟩, 76),
   (⟨0x83c7088e1aab65db, 216⟩, 84), (⟨0xc45d1df942711d9a, 242⟩, 92),
   (⟨0x924d692ca61be758, 269⟩, 100), (⟨0xda01ee641a708dea, 295⟩, 108),
   (⟨0xa26da3999aef774a, 322⟩, 116), (⟨0xf209787bb47d6b85, 348⟩, 124),
   (⟨0xb454e4a179dd1877, 375⟩, 132), (⟨0x865b86925b9bc5c2, 402⟩, 140),
   (⟨0xc83553c5c8965d3d, 428⟩, 148), (⟨0x952ab45cfa97a0b3, 455⟩, 156),
   (⟨0xde469fbd99a05fe3, 481⟩, 164), (⟨0xa59bc234db398c25, 508⟩, 172),
   (⟨0xf6c69a72a3989f5c, 534⟩, 180), (⟨0xb7dcbf5354e9bece, 561⟩, 188),
   (⟨0x88fcf317f22241e2, 588⟩, 196), (⟨0xcc20ce9bd35c78a5, 614⟩, 204),
   (⟨0x98165af37b2153df, 641⟩, 212), (⟨0xe2a0b5dc971f303a, 667⟩, 220),
   (⟨0xa8d9d1535ce3b396, 694⟩, 228), (⟨0xfb9b7cd9a4a7443c, 720⟩, 236),
   (⟨0xbb764c4ca7a44410, 747⟩, 244), (⟨0x8bab8eefb6409c1a, 774⟩, 252),
   (⟨0xd01fef10a657842c, 800⟩, 260), (⟨0x9b10a4e5e9913129, 827⟩, 268),
   (⟨0xe7109bfba19c0c9d, 853⟩, 276), (⟨0xac2820d9623bf429, 880⟩, 284),
   (⟨0x80444b5e7aa7cf85, 907⟩, 292), (⟨0xbf21e44003acdd2d, 933⟩, 300),
   (⟨0x8e679c2f5e44ff8f, 960⟩, 308), (⟨0xd433179d9c8cb841, 986⟩, 316),
   (⟨0x9e19db92b4e31ba9, 1013⟩, 324), (⟨0xeb96bf6ebadf77d9, 1039⟩, 332),
   (⟨0xaf87023b9bf0ee6b, 1066⟩, 340)]

/-- `njs_cached_power_dec`, unless the index is outside the table. -/
def cachedPowerDec (exp : ℤ) : Result (DiyFp × ℤ) :=
  let index := (exp + 348).tdiv 8
  if index < 0 then .error .fault
  else match cachedPowers[index.toNat]? with
    | some power => .ok power
    | none => .error .fault

/-- `njs_adjust_pow10`. -/
def adjustPow10 : ℤ → Result DiyFp
  | 1 => .ok ⟨0xa000000000000000, -60⟩
  | 2 => .ok ⟨0xc800000000000000, -57⟩
  | 3 => .ok ⟨0xfa00000000000000, -54⟩
  | 4 => .ok ⟨0x9c40000000000000, -50⟩
  | 5 => .ok ⟨0xc350000000000000, -47⟩
  | 6 => .ok ⟨0xf424000000000000, -44⟩
  | 7 => .ok ⟨0x9896800000000000, -40⟩
  | _ => .error .fault

/-! ## Shifts -/

theorem leadingZeros64_bounds (hpos : 0 < m) (hm : m < 2 ^ 64) :
    2 ^ 63 ≤ m * 2 ^ leadingZeros64 m ∧ m * 2 ^ leadingZeros64 m < 2 ^ 64 := by
  have hlog : Nat.log2 m ≤ 63 := Nat.lt_succ_iff.mp ((Nat.log2_lt (by omega)).mpr hm)
  have hself : 2 ^ Nat.log2 m ≤ m := Nat.log2_self_le (by omega)
  have hlt : m < 2 ^ (Nat.log2 m + 1) := Nat.lt_log2_self
  have hzeros : leadingZeros64 m = 63 - Nat.log2 m := if_neg (by omega)
  have hadd : Nat.log2 m + leadingZeros64 m = 63 := by omega
  have hshift : 0 < 2 ^ leadingZeros64 m := Nat.two_pow_pos _
  constructor
  · calc 2 ^ 63 = 2 ^ Nat.log2 m * 2 ^ leadingZeros64 m := by rw [← pow_add, hadd]
      _ ≤ m * 2 ^ leadingZeros64 m := Nat.mul_le_mul_right _ hself
  · calc m * 2 ^ leadingZeros64 m < 2 ^ (Nat.log2 m + 1) * 2 ^ leadingZeros64 m :=
          Nat.mul_lt_mul_of_pos_right hlt hshift
      _ = 2 ^ 64 := by rw [← pow_add, Nat.add_right_comm, hadd]

theorem leadingZeros64_le (h : 2 ^ n ≤ m) : leadingZeros64 m ≤ 63 - n := by
  have hpos : 0 < 2 ^ n := Nat.two_pow_pos n
  have hlog : n ≤ Nat.log2 m := (Nat.le_log2 (by omega)).mpr h
  have hzeros : leadingZeros64 m = 63 - Nat.log2 m := if_neg (by omega)
  omega

theorem DiyFp.normalize_eq (hpos : 0 < v.significand) (hv : v.significand < 2 ^ 64) :
    v.normalize = ⟨v.significand * 2 ^ leadingZeros64 v.significand,
      v.exp - leadingZeros64 v.significand⟩ := by
  unfold normalize shiftLeft
  rw [Nat.mod_eq_of_lt (leadingZeros64_bounds hpos hv).2]

/-! ## Products -/

/-- The product is rounded to the nearest significand. -/
theorem DiyFp.mul_significand (hv : v.significand < 2 ^ 64) (hw : w.significand < 2 ^ 64) :
    (v.mul w).significand < 2 ^ 64 ∧
      |(v.significand * w.significand : ℚ) / 2 ^ 64 - (v.mul w).significand| ≤ 1 / 2 := by
  have hle : v.significand * w.significand ≤ (2 ^ 64 - 1) * (2 ^ 64 - 1) :=
    Nat.mul_le_mul (by omega) (by omega)
  have hdiv : v.significand * w.significand / 2 ^ 64 ≤ 2 ^ 64 - 2 := by omega
  have hparts := Nat.div_add_mod (v.significand * w.significand) (2 ^ 64)
  have hlow := Nat.mod_lt (v.significand * w.significand) (show 0 < 2 ^ 64 by omega)
  unfold mul
  simp only
  have hcast : (v.significand * w.significand : ℚ) = (v.significand * w.significand : ℕ) := by
    push_cast
    rfl
  rw [hcast]
  generalize v.significand * w.significand / 2 ^ 64 = h at *
  generalize v.significand * w.significand % 2 ^ 64 = l at *
  have hvalue : ((2 ^ 64 * h + l : ℕ) : ℚ) / 2 ^ 64 = h + l / 2 ^ 64 := by
    push_cast
    ring
  have hzero : (0 : ℚ) ≤ (l : ℚ) / 2 ^ 64 := by positivity
  rw [← hparts, hvalue, abs_le]
  split_ifs with hround
  · have hhalf : (1 / 2 : ℚ) ≤ (l : ℚ) / 2 ^ 64 := by
      rw [le_div_iff₀ (by norm_num)]
      have hround' : (2 ^ 63 : ℚ) ≤ l := by exact_mod_cast hround
      linarith
    have hone : (l / 2 ^ 64 : ℚ) < 1 := by
      rw [div_lt_one (by norm_num)]
      exact_mod_cast hlow
    rw [Nat.mod_eq_of_lt (show h + 1 < 2 ^ 64 by omega)]
    push_cast
    refine ⟨by omega, ?_, ?_⟩ <;> linarith
  · have hhalf : (l / 2 ^ 64 : ℚ) < 1 / 2 := by
      rw [div_lt_iff₀ (by norm_num)]
      have hround' : (l : ℚ) < 2 ^ 63 := by exact_mod_cast not_le.mp hround
      linarith
    refine ⟨by omega, ?_, ?_⟩ <;> linarith

/-- A product of few bits is exact. -/
theorem DiyFp.mul_of_dvd (h : 2 ^ 64 ∣ v.significand * w.significand) :
    ((v.mul w).significand : ℚ) = v.significand * w.significand / 2 ^ 64 := by
  obtain ⟨n, hn⟩ := h
  have hmul : (v.mul w).significand = n := by
    unfold mul
    simp only
    rw [hn, Nat.mul_mod_right, Nat.mul_div_cancel_left n (by omega), if_neg (by omega)]
  have hcast : (v.significand * w.significand : ℚ) = 2 ^ 64 * n := by exact_mod_cast hn
  rw [hmul, hcast]
  ring

theorem DiyFp.le_mul {j k : ℕ} (hv : 2 ^ j ≤ v.significand) (hv' : v.significand < 2 ^ 64)
    (hw : 2 ^ k ≤ w.significand) (hw' : w.significand < 2 ^ 64) (hn : n + 64 = j + k) :
    2 ^ n ≤ (v.mul w).significand := by
  have hdiv : v.significand * w.significand / 2 ^ 64 < 2 ^ 64 - 1 := by
    have hle : v.significand * w.significand ≤ (2 ^ 64 - 1) * (2 ^ 64 - 1) :=
      Nat.mul_le_mul (by omega) (by omega)
    omega
  have hle : 2 ^ n ≤ v.significand * w.significand / 2 ^ 64 := by
    rw [Nat.le_div_iff_mul_le (by omega), ← pow_add, hn, pow_add]
    exact Nat.mul_le_mul hv hw
  unfold mul
  simp only
  split_ifs
  · rw [Nat.mod_eq_of_lt (by omega)]
    omega
  · exact hle

/-! ## Doubles -/

theorem shiftDown_of_le (h : m < 2 ^ 53) : shiftDown m e = (m, e) := by
  rw [shiftDown, if_neg (by omega)]

theorem shiftDown_two_pow : shiftDown (2 ^ 53) e = (2 ^ 52, e + 1) := by
  rw [shiftDown, if_pos (by norm_num)]
  exact shiftDown_of_le (by norm_num)

theorem shiftUp_of_hidden (h : 2 ^ 52 ≤ m ∨ e = -1074) (hm : m < 2 ^ 53) :
    shiftUp m e = (m, e) := by
  rw [shiftUp, if_neg (by omega)]

/-- A significand with its hidden bit, or a small one with the least exponent. -/
theorem DiyFp.toDouble_of_hidden {q : ℕ} (hm : m ≤ 2 ^ 53) (hhidden : 2 ^ 52 ≤ m ∨ q = 0) :
    (⟨m, -1074 + q⟩ : DiyFp).toDouble = min (m + q * 2 ^ 52) double.infinity := by
  have hinfinity : double.infinity = 2047 * 2 ^ 52 := rfl
  have hfinite : ∀ l p : ℕ, l < 2 ^ 53 → (2 ^ 52 ≤ l ∨ p = 0) →
      (if (972 : ℤ) ≤ -1074 + p then double.infinity
        else if (-1074 + p : ℤ) < -1074 then 0
        else
          let v := shiftUp l (-1074 + p)
          let biased := if v.2 = -1074 ∧ v.1 / 2 ^ 52 % 2 = 0 then 0 else (v.2 + 1075).toNat
          v.1 % 2 ^ 52 + biased * 2 ^ 52) = min (l + p * 2 ^ 52) double.infinity := by
    intro l p hl hp
    rw [shiftUp_of_hidden (by omega) hl, hinfinity]
    simp only
    rcases Nat.lt_or_ge p 2046 with hlt | hge
    · rw [if_neg (by omega), if_neg (by omega), min_eq_left (by omega)]
      split_ifs with hzero
      · omega
      · rw [show (-1074 + (p : ℤ) + 1075).toNat = p + 1 by omega]
        omega
    · rw [if_pos (by omega), min_eq_right (by omega)]
  unfold toDouble
  simp only
  rcases Nat.lt_or_ge m (2 ^ 53) with hlt | hge
  · rw [shiftDown_of_le hlt]
    exact hfinite m q hlt hhidden
  · obtain rfl : m = 2 ^ 53 := by omega
    rw [shiftDown_two_pow, show (-1074 + q + 1 : ℤ) = -1074 + (q + 1 : ℕ) by push_cast; ring,
      show 2 ^ 53 + q * 2 ^ 52 = 2 ^ 52 + (q + 1) * 2 ^ 52 by ring]
    exact hfinite (2 ^ 52) (q + 1) (by norm_num) (.inl le_rfl)

theorem DiyFp.toDouble_of_small (hm : m < 2 ^ 53) (he : e < -1074) :
    (⟨m, e⟩ : DiyFp).toDouble = 0 := by
  unfold toDouble
  simp only
  rw [shiftDown_of_le hm, if_neg (by simp only; omega), if_pos he]

/-! ## Powers of ten -/

theorem zpow_eq_div {b : ℚ} (hb : b ≠ 0) (e : ℤ) : b ^ e = b ^ e.toNat / b ^ (-e).toNat := by
  rw [← zpow_natCast, ← zpow_natCast, ← zpow_sub₀ hb]
  congr 1
  omega

/-- A significand is within half a unit of the power of ten. -/
def IsClose (power : DiyFp × ℤ) : Prop :=
  2 ^ 63 ≤ power.1.significand ∧ power.1.significand < 2 ^ 64 ∧
    (2 * power.1.significand - 1) * (10 ^ (-power.2).toNat * 2 ^ power.1.exp.toNat) ≤
      2 * (10 ^ power.2.toNat * 2 ^ (-power.1.exp).toNat) ∧
    2 * (10 ^ power.2.toNat * 2 ^ (-power.1.exp).toNat) ≤
      (2 * power.1.significand + 1) * (10 ^ (-power.2).toNat * 2 ^ power.1.exp.toNat)

instance (power : DiyFp × ℤ) : Decidable (IsClose power) := instDecidableAnd

theorem cachedPowers_close : ∀ power ∈ cachedPowers, IsClose power := by decide +kernel

theorem cachedPowers_exp : cachedPowers.map Prod.snd =
    (List.range 87).map fun (i : ℕ) => (-348 + 8 * i : ℤ) := by decide +kernel

/-- A cached power has an error of at most half a unit in the last place. -/
theorem IsClose.error {power : DiyFp × ℤ} (h : IsClose power) :
    |(10 : ℚ) ^ power.2 * 2 ^ (-power.1.exp) - power.1.significand| ≤ 1 / 2 := by
  obtain ⟨hlow, -, hlower, hupper⟩ := h
  obtain ⟨⟨s, e⟩, d⟩ := power
  simp only at hlow hlower hupper ⊢
  have hlower' : (2 * s - 1 : ℚ) * (10 ^ (-d).toNat * 2 ^ e.toNat) ≤
      2 * (10 ^ d.toNat * 2 ^ (-e).toNat) := by
    have hcast : ((2 * s - 1 : ℕ) : ℚ) = 2 * s - 1 := by
      rw [Nat.cast_sub (by omega)]
      push_cast
      rfl
    rw [← hcast]
    exact_mod_cast hlower
  have hupper' : 2 * (10 ^ d.toNat * 2 ^ (-e).toNat) ≤
      (2 * s + 1 : ℚ) * (10 ^ (-d).toNat * 2 ^ e.toNat) := by exact_mod_cast hupper
  have hden : (0 : ℚ) < 10 ^ (-d).toNat * 2 ^ e.toNat := by positivity
  have hvalue : (10 : ℚ) ^ d * 2 ^ (-e) =
      (10 ^ d.toNat * 2 ^ (-e).toNat) / (10 ^ (-d).toNat * 2 ^ e.toNat) := by
    rw [zpow_eq_div (by norm_num) d, zpow_eq_div (by norm_num) (-e), neg_neg, div_mul_div_comm]
  rw [hvalue, abs_le]
  constructor
  · rw [le_sub_iff_add_le, le_div_iff₀ hden]
    linarith
  · rw [sub_le_iff_le_add, div_le_iff₀ hden]
    linarith

/-- The cached power for a decimal exponent is the largest one that is not larger. -/
theorem cachedPowerDec_spec (hlow : -348 ≤ e) (hhigh : e ≤ 340 + 7) :
    ∃ power, cachedPowerDec e = .ok power ∧ IsClose power ∧ power.2 ≤ e ∧ e < power.2 + 8 := by
  obtain ⟨i, hi⟩ : ∃ i : ℕ, (i : ℤ) = (e + 348).tdiv 8 :=
    ⟨((e + 348).tdiv 8).toNat, Int.toNat_of_nonneg (Int.tdiv_nonneg (by omega) (by norm_num))⟩
  rw [Int.tdiv_eq_ediv_of_nonneg (by omega)] at hi
  have hlt : i < cachedPowers.length := by
    have hlength : cachedPowers.length = 87 := by decide +kernel
    omega
  have hexp : (cachedPowers[i]).2 = -348 + 8 * i := by
    have hget := congrArg (·[i]?) cachedPowers_exp
    simp only [List.getElem?_map, List.getElem?_eq_getElem hlt, Option.map_some] at hget
    rw [List.getElem?_eq_getElem (by rw [List.length_range]; omega)] at hget
    simpa using hget
  refine ⟨cachedPowers[i], ?_, cachedPowers_close _ (List.getElem_mem hlt), ?_, ?_⟩
  · unfold cachedPowerDec
    simp only
    rw [Int.tdiv_eq_ediv_of_nonneg (by omega), ← hi, if_neg (by omega), Int.toNat_natCast,
      List.getElem?_eq_getElem hlt]
  · rw [hexp]
    omega
  · rw [hexp]
    omega

/-- The small powers of ten are exact. -/
theorem adjustPow10_spec (hpos : 0 < n) (hn : n < 8) : ∃ power, adjustPow10 n = .ok power ∧
    2 ^ 63 ≤ power.significand ∧ power.significand < 2 ^ 64 ∧ ∃ z : ℕ,
      power.significand = 10 ^ n * 2 ^ z ∧ power.exp = -z := by
  interval_cases n
  · exact ⟨_, rfl, by norm_num, by norm_num, 60, by norm_num, rfl⟩
  · exact ⟨_, rfl, by norm_num, by norm_num, 57, by norm_num, rfl⟩
  · exact ⟨_, rfl, by norm_num, by norm_num, 54, by norm_num, rfl⟩
  · exact ⟨_, rfl, by norm_num, by norm_num, 50, by norm_num, rfl⟩
  · exact ⟨_, rfl, by norm_num, by norm_num, 47, by norm_num, rfl⟩
  · exact ⟨_, rfl, by norm_num, by norm_num, 44, by norm_num, rfl⟩
  · exact ⟨_, rfl, by norm_num, by norm_num, 40, by norm_num, rfl⟩

end Njs.Decimal
