import Mathlib.Algebra.Order.Field.Rat
import Mathlib.Tactic.Linarith
import Mathlib.Tactic.Ring

/-!
# Binary floating-point formats

The non-negative numbers of a binary format are numbered in their order by the words that encode
them. The word behind the largest one is infinity, which rounding takes for the next number.
-/

namespace Njs.Lib

/-- A format with so many bits of fraction, where the smallest positive number is this power of
two, and this is the biased exponent of infinity. -/
structure BinaryFormat where
  fraction : ℕ
  least : ℤ
  top : ℕ

namespace BinaryFormat

variable {f : BinaryFormat} {v : ℚ} {a b c : ℕ}

/-- The exponent of a word's last bit. -/
def exponent (f : BinaryFormat) (b : ℕ) : ℤ := f.least + (b / 2 ^ f.fraction - 1 : ℕ)

/-- The significand of a word, with the hidden bit. -/
def significand (f : BinaryFormat) (b : ℕ) : ℕ :=
  if b / 2 ^ f.fraction = 0 then b else b % 2 ^ f.fraction + 2 ^ f.fraction

/-- The number that a word encodes. -/
def value (f : BinaryFormat) (b : ℕ) : ℚ := f.significand b * 2 ^ f.exponent b

/-- The word of infinity. -/
def infinity (f : BinaryFormat) : ℕ := f.top * 2 ^ f.fraction

/-- Rounding a number gives the nearest one of the format, the even one of two. -/
structure IsRounded (f : BinaryFormat) (v : ℚ) (b : ℕ) : Prop where
  le_infinity : b ≤ f.infinity
  nearest : ∀ c ≤ f.infinity, |v - f.value b| ≤ |v - f.value c|
  even : ∀ c ≤ f.infinity, c ≠ b → |v - f.value b| = |v - f.value c| → b % 2 = 0

/-! ## The order of the words -/

theorem two_zpow_pos (e : ℤ) : (0 : ℚ) < 2 ^ e := zpow_pos (by norm_num) e

/-- The word of a significand with its hidden bit, or of a small one with the least exponent. -/
theorem value_of_significand {m q : ℕ} (hm : m < 2 ^ (f.fraction + 1))
    (hhidden : 2 ^ f.fraction ≤ m ∨ q = 0) :
    f.value (m + q * 2 ^ f.fraction) = m * 2 ^ (f.least + q) := by
  have hpos : 0 < 2 ^ f.fraction := Nat.two_pow_pos f.fraction
  rw [pow_succ] at hm
  unfold value exponent significand
  rcases Nat.lt_or_ge m (2 ^ f.fraction) with hlt | hge
  · obtain rfl : q = 0 := by omega
    rw [Nat.zero_mul, Nat.add_zero, Nat.div_eq_of_lt hlt, if_pos rfl]
  · obtain ⟨r, rfl⟩ := Nat.exists_eq_add_of_le hge
    have hr : r < 2 ^ f.fraction := by omega
    have hword : 2 ^ f.fraction + r + q * 2 ^ f.fraction = r + 2 ^ f.fraction * (q + 1) := by ring
    rw [hword, Nat.add_mul_div_left r (q + 1) hpos, Nat.div_eq_of_lt hr,
      Nat.add_mul_mod_self_left, Nat.mod_eq_of_lt hr, if_neg (by omega), Nat.add_comm r,
      Nat.zero_add, Nat.add_sub_cancel]

/-- Every word is one of a significand. -/
theorem exists_significand (b : ℕ) : ∃ m q, b = m + q * 2 ^ f.fraction ∧
    m < 2 ^ (f.fraction + 1) ∧ (2 ^ f.fraction ≤ m ∨ q = 0) := by
  have hpos : 0 < 2 ^ f.fraction := Nat.two_pow_pos f.fraction
  have hdiv := Nat.mod_add_div b (2 ^ f.fraction)
  have hlt := Nat.mod_lt b hpos
  rw [pow_succ]
  rcases hq : b / 2 ^ f.fraction with - | q
  · rw [hq, Nat.mul_zero] at hdiv
    exact ⟨b % 2 ^ f.fraction, 0, by omega, by omega, .inr rfl⟩
  · rw [hq, Nat.mul_add, Nat.mul_one] at hdiv
    refine ⟨b % 2 ^ f.fraction + 2 ^ f.fraction, q, ?_, by omega, .inl (by omega)⟩
    rw [Nat.mul_comm q]
    omega

/-- The next number is one unit in the last place larger. -/
theorem value_succ {m q : ℕ} (hm : m < 2 ^ (f.fraction + 1))
    (hhidden : 2 ^ f.fraction ≤ m ∨ q = 0) :
    f.value (m + q * 2 ^ f.fraction + 1) = (m + 1) * 2 ^ (f.least + q) := by
  rcases Nat.lt_or_ge (m + 1) (2 ^ (f.fraction + 1)) with hlt | hge
  · have hnext := value_of_significand (f := f) hlt (q := q) (by omega)
    rw [show m + q * 2 ^ f.fraction + 1 = m + 1 + q * 2 ^ f.fraction by ring, hnext]
    push_cast
    rfl
  · have hone : m + 1 = 2 * 2 ^ f.fraction := by
      rw [pow_succ] at hm hge
      omega
    have hword : m + q * 2 ^ f.fraction + 1 = 2 ^ f.fraction + (q + 1) * 2 ^ f.fraction := by
      rw [show m + q * 2 ^ f.fraction + 1 = m + 1 + q * 2 ^ f.fraction by ring, hone]
      ring
    have hnext := value_of_significand (f := f) (m := 2 ^ f.fraction) (q := q + 1)
      (Nat.pow_lt_pow_right (by omega) (by omega)) (.inl le_rfl)
    have hcast : (m : ℚ) + 1 = 2 * 2 ^ f.fraction := by exact_mod_cast hone
    rw [hword, hnext, hcast, Nat.cast_succ, ← Int.add_assoc, zpow_add_one₀ (by norm_num)]
    push_cast
    ring

theorem value_lt_succ (b : ℕ) : f.value b < f.value (b + 1) := by
  obtain ⟨m, q, rfl, hm, hhidden⟩ := exists_significand (f := f) b
  rw [value_of_significand hm hhidden, value_succ hm hhidden]
  exact mul_lt_mul_of_pos_right (by linarith) (two_zpow_pos _)

theorem value_strictMono : StrictMono f.value := strictMono_nat_of_lt_succ value_lt_succ

theorem value_add_exponent (b : ℕ) : f.value (b + 1) = f.value b + 2 ^ f.exponent b := by
  obtain ⟨m, q, rfl, hm, hhidden⟩ := exists_significand (f := f) b
  have hexponent : f.exponent (m + q * 2 ^ f.fraction) = f.least + q := by
    have hpos : 0 < 2 ^ f.fraction := Nat.two_pow_pos f.fraction
    rw [pow_succ] at hm
    unfold exponent
    rw [Nat.add_mul_div_right m q hpos]
    rcases hhidden with hge | rfl
    · rw [show m / 2 ^ f.fraction = 1 by
        rw [Nat.div_eq_iff hpos]
        omega]
      simp
    · rw [Nat.add_zero, Nat.sub_eq_zero_of_le]
      rw [← Nat.lt_succ_iff, Nat.div_lt_iff_lt_mul hpos]
      omega
  rw [hexponent, value_of_significand hm hhidden, value_succ hm hhidden]
  ring

theorem exponent_mono (h : a ≤ b) : f.exponent a ≤ f.exponent b := by
  have hdiv := Nat.div_le_div_right (c := 2 ^ f.fraction) h
  unfold exponent
  omega

section Near

variable {m q : ℕ}

/-- The significand may be that of the next power of two. -/
theorem value_of_le (hm : m ≤ 2 ^ (f.fraction + 1)) (hhidden : 2 ^ f.fraction ≤ m ∨ q = 0) :
    f.value (m + q * 2 ^ f.fraction) = m * 2 ^ (f.least + q) := by
  rcases Nat.lt_or_ge m (2 ^ (f.fraction + 1)) with hlt | hge
  · exact value_of_significand hlt hhidden
  · have hpos : 0 < 2 ^ f.fraction := Nat.two_pow_pos f.fraction
    rw [pow_succ] at hm hge
    obtain ⟨l, rfl⟩ : ∃ l, m = l + 1 := ⟨m - 1, by omega⟩
    have hvalue := value_succ (f := f) (m := l) (q := q) (by rw [pow_succ]; omega) (by omega)
    rw [Nat.add_right_comm, hvalue]
    push_cast
    rfl

/-- The numbers behind a word are at least its units in the last place apart. -/
theorem le_value_add (hm : m ≤ 2 ^ (f.fraction + 1)) (hhidden : 2 ^ f.fraction ≤ m ∨ q = 0)
    (n : ℕ) : (m + n) * 2 ^ (f.least + q) ≤ f.value (m + q * 2 ^ f.fraction + n) := by
  induction n with
  | zero =>
    rw [Nat.add_zero, value_of_le hm hhidden]
    simp
  | succ n ih =>
    have hexponent : f.least + q ≤ f.exponent (m + q * 2 ^ f.fraction + n) := by
      refine le_trans ?_ (exponent_mono (Nat.le_add_right _ n))
      have hpos : 0 < 2 ^ f.fraction := Nat.two_pow_pos f.fraction
      unfold exponent
      rw [Nat.add_mul_div_right m q hpos]
      rcases hhidden with hge | rfl
      · have hone : 1 ≤ m / 2 ^ f.fraction := by rwa [Nat.one_le_div_iff hpos]
        omega
      · omega
    have hunit : (2 : ℚ) ^ (f.least + q) ≤ 2 ^ f.exponent (m + q * 2 ^ f.fraction + n) :=
      zpow_le_zpow_right₀ (by norm_num) hexponent
    rw [← Nat.add_assoc, value_add_exponent]
    push_cast
    linarith

/-- The middle below a word. -/
theorem value_below (hm : m ≤ 2 ^ (f.fraction + 1)) (hhidden : 2 ^ f.fraction ≤ m ∨ q = 0)
    (ha : a + 1 = m + q * 2 ^ f.fraction) :
    f.value a ≤ (m - 1 / 2) * 2 ^ (f.least + q) ∧
      (2 ^ f.fraction < m ∨ q = 0 → f.value a = (m - 1) * 2 ^ (f.least + q)) := by
  have hpos : 0 < 2 ^ f.fraction := Nat.two_pow_pos f.fraction
  have hunit := two_zpow_pos (f.least + q)
  by_cases hsame : 2 ^ f.fraction < m ∨ q = 0
  · obtain ⟨l, rfl⟩ : ∃ l, m = l + 1 := by
      refine ⟨m - 1, ?_⟩
      rcases hsame with hlt | rfl <;> omega
    obtain rfl : a = l + q * 2 ^ f.fraction := by omega
    have hvalue : f.value (l + q * 2 ^ f.fraction) = l * 2 ^ (f.least + q) :=
      value_of_significand (by omega) (by omega)
    rw [hvalue]
    push_cast
    constructor
    · linarith
    · intro _
      ring
  · obtain ⟨hle, hq⟩ := not_or.mp hsame
    obtain ⟨q, rfl⟩ := Nat.exists_eq_succ_of_ne_zero hq
    obtain rfl : m = 2 ^ f.fraction := by omega
    refine ⟨?_, fun h => absurd h hsame⟩
    obtain ⟨l, hl⟩ : ∃ l, 2 * 2 ^ f.fraction = l + 1 := ⟨2 * 2 ^ f.fraction - 1, by omega⟩
    have hword : a = l + q * 2 ^ f.fraction := by
      rw [Nat.succ_eq_add_one, Nat.add_mul] at ha
      omega
    have hvalue : f.value a = l * 2 ^ (f.least + q) := by
      rw [hword]
      exact value_of_significand (by rw [pow_succ]; omega) (.inl (by omega))
    have hcast : (l : ℚ) = 2 * 2 ^ f.fraction - 1 := by
      have hl' : (2 * 2 ^ f.fraction : ℚ) = l + 1 := by exact_mod_cast hl
      linarith
    rw [hvalue, hcast, Nat.cast_succ, ← Int.add_assoc, zpow_add_one₀ (by norm_num)]
    push_cast
    linarith

end Near

/-! ## Rounding -/

/-- A number between the middles on both sides of a word is rounded to it. -/
theorem isRounded_of_middles (hb : b ≤ f.infinity)
    (hlower : ∀ a, a + 1 = b → f.value a + f.value b ≤ 2 * v ∧
      (f.value a + f.value b = 2 * v → b % 2 = 0))
    (hupper : b < f.infinity → 2 * v ≤ f.value b + f.value (b + 1) ∧
      (2 * v = f.value b + f.value (b + 1) → b % 2 = 0)) : f.IsRounded v b := by
  have hbelow : ∀ c < b, f.value c + f.value b ≤ 2 * v ∧
      (f.value c + f.value b = 2 * v → b % 2 = 0) := by
    intro c hc
    obtain ⟨a, rfl⟩ : ∃ a, b = a + 1 := ⟨b - 1, by omega⟩
    obtain ⟨hle, heven⟩ := hlower a rfl
    rcases Nat.lt_succ_iff_lt_or_eq.mp hc with hlt | rfl
    · have hvalue := value_strictMono (f := f) hlt
      exact ⟨by linarith, fun h => by linarith⟩
    · exact ⟨hle, heven⟩
  have habove : ∀ c ≤ f.infinity, b < c → 2 * v ≤ f.value b + f.value c ∧
      (2 * v = f.value b + f.value c → b % 2 = 0) := by
    intro c hc hlt
    obtain ⟨hle, heven⟩ := hupper (by omega)
    rcases Nat.lt_or_ge (b + 1) c with hnext | hnext
    · have hvalue := value_strictMono (f := f) hnext
      exact ⟨by linarith, fun h => by linarith⟩
    · obtain rfl : c = b + 1 := by omega
      exact ⟨hle, heven⟩
  refine ⟨hb, fun c hc => ?_, fun c hc hne heq => ?_⟩
  · rcases lt_trichotomy c b with hlt | rfl | hlt
    · have hvalue := value_strictMono (f := f) hlt
      have hle := (hbelow c hlt).1
      rw [abs_le]
      have habs := le_abs_self (v - f.value c)
      constructor <;> linarith
    · exact le_rfl
    · have hvalue := value_strictMono (f := f) hlt
      have hle := (habove c hc hlt).1
      rw [abs_le]
      have habs := neg_abs_le (v - f.value c)
      constructor <;> linarith
  · rcases Nat.lt_or_gt_of_ne hne with hlt | hlt
    · have hvalue := value_strictMono (f := f) hlt
      apply (hbelow c hlt).2
      rcases abs_eq_abs.mp heq with h | h <;> linarith
    · have hvalue := value_strictMono (f := f) hlt
      apply (habove c hc hlt).2
      rcases abs_eq_abs.mp heq with h | h <;> linarith

/-- A number that is rounded to a word is larger than the numbers below the word. -/
theorem IsRounded.lt (h : f.IsRounded v b) (ha : a < b) :
    f.value a < v := by
  have hvalue := value_strictMono (f := f) ha
  have hnear := h.nearest a (ha.le.trans h.le_infinity)
  by_contra hle
  rw [not_lt] at hle
  rw [abs_of_nonpos (by linarith), abs_of_nonpos (by linarith)] at hnear
  linarith

/-- A number between the middle below a word and the second one above it is rounded to the word or
to the next one. -/
theorem exists_isRounded (hb : b ≤ f.infinity)
    (hlower : ∀ a, a + 1 = b → f.value a + f.value b < 2 * v)
    (hupper : b + 1 < f.infinity → 2 * v < f.value (b + 1) + f.value (b + 2)) :
    ∃ c, f.IsRounded v c ∧ (b = c ∨ b + 1 = c) := by
  have hbelow : ∀ a, a + 1 = b → f.value a + f.value b ≤ 2 * v ∧
      (f.value a + f.value b = 2 * v → b % 2 = 0) := by
    intro a ha
    have hlt := hlower a ha
    exact ⟨hlt.le, fun h => absurd h hlt.ne⟩
  by_cases hinfinity : b = f.infinity
  · exact ⟨b, isRounded_of_middles hb hbelow fun h => by omega, .inl rfl⟩
  by_cases hthis : 2 * v < f.value b + f.value (b + 1) ∨
      2 * v = f.value b + f.value (b + 1) ∧ b % 2 = 0
  · refine ⟨b, isRounded_of_middles hb hbelow fun _ => ?_, .inl rfl⟩
    rcases hthis with hlt | ⟨heq, heven⟩
    · exact ⟨hlt.le, fun h => absurd h hlt.ne⟩
    · exact ⟨heq.le, fun _ => heven⟩
  · rw [not_or, not_lt, not_and] at hthis
    refine ⟨b + 1, isRounded_of_middles (by omega) (fun a ha => ?_) fun hlt => ?_, .inr rfl⟩
    · obtain rfl : a = b := by omega
      refine ⟨hthis.1, fun h => ?_⟩
      have hodd := hthis.2 h.symm
      omega
    · have hlt := hupper hlt
      exact ⟨hlt.le, fun h => absurd h hlt.ne⟩

/-- A number near a word, or near a word beyond infinity, is less than three quarters of a unit
larger. -/
theorem exists_isRounded_near {m q : ℕ} (htop : 0 < f.infinity) (hm : m ≤ 2 ^ (f.fraction + 1))
    (hhidden : 2 ^ f.fraction ≤ m ∨ q = 0)
    (hlower : (m - 1 / 4) * 2 ^ (f.least + q) < v ∨
      (2 ^ f.fraction < m ∨ q = 0) ∧ (m - 1 / 2) * 2 ^ (f.least + q) < v)
    (hupper : v < (m + 3 / 4) * 2 ^ (f.least + q)) :
    (∃ c, f.IsRounded v c ∧ (min (m + q * 2 ^ f.fraction) f.infinity = c ∨
      min (m + q * 2 ^ f.fraction) f.infinity + 1 = c)) ∧
    (min (m + q * 2 ^ f.fraction) f.infinity < f.infinity →
      4 * v < f.value (min (m + q * 2 ^ f.fraction) f.infinity) +
        3 * f.value (min (m + q * 2 ^ f.fraction) f.infinity + 1)) := by
  have hvalue := value_of_le hm hhidden
  have hunit := two_zpow_pos (f.least + q)
  have hbelow : ∀ a, a + 1 = m + q * 2 ^ f.fraction →
      f.value a + f.value (m + q * 2 ^ f.fraction) < 2 * v := by
    intro a ha
    obtain ⟨hle, heq⟩ := value_below hm hhidden ha
    rw [hvalue]
    rcases hlower with hlt | ⟨hsame, hlt⟩
    · linarith
    · rw [heq hsame]
      linarith
  have hone := le_value_add hm hhidden 1
  have htwo := le_value_add hm hhidden 2
  push_cast at hone htwo
  rcases Nat.le_total (m + q * 2 ^ f.fraction) f.infinity with hle | hle
  · rw [min_eq_left hle]
    refine ⟨exists_isRounded hle hbelow fun _ => ?_, fun _ => ?_⟩
    · linarith
    · rw [hvalue]
      linarith
  · rw [min_eq_right hle]
    refine ⟨exists_isRounded le_rfl (fun a ha => ?_) fun h => by omega,
      fun h => absurd h (Nat.lt_irrefl _)⟩
    obtain ⟨l, hl⟩ : ∃ l, l + 1 = m + q * 2 ^ f.fraction :=
      ⟨m + q * 2 ^ f.fraction - 1, by omega⟩
    have hlt := hbelow l hl
    have hfirst := value_strictMono (f := f).monotone (show a ≤ l by omega)
    have hsecond := value_strictMono (f := f).monotone hle
    linarith

end BinaryFormat

end Njs.Lib
