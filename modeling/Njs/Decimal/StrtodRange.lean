import Njs.Decimal.Strtod

/-!
# The range of `njs_strtod`

The exponent that is written stops growing before it overflows, but the number of the digits
counted or dropped is added to it. Where no sum overflows, what is read is another literal: the
first 128 digits, with the first digits of the exponent.
-/

namespace Njs.Decimal

open Json

variable {n : Numeral} {q text digits : List UInt8} {x : ℚ} {word : ℕ}

/-- `njs_strtod`, the word of the double and the text behind the literal. There is no word where it
returns a NaN of its own. -/
def strtodDouble (text : List UInt8) : Result (Option (ℕ × List UInt8)) := do
  let literal ← strtod text
  match literal with
  | none => .ok none
  | some literal => do
    let word ← strtodInternal literal.digits literal.exponent
    .ok (some (word, literal.rest))

/-- The digits of an exponent that the loop reads behind those whose value is `exp`. -/
def readBehind (exp : ℕ) : List UInt8 → List UInt8
  | [] => []
  | c :: digits =>
    if exp < (2 ^ 31 - 1 - 9) / 10 then c :: readBehind (exp * 10 + (c - 48).toNat) digits
    else []

/-- The first digits of an exponent, up to a value of at least `214748363`. -/
def readExponent : List UInt8 → List UInt8
  | [] => []
  | c :: digits => c :: readBehind (c - 48).toNat digits

/-- A literal with zeros for the digits of the whole part behind the first 128, without the digits
of the fraction behind them, and with the first digits of the exponent. -/
def shorten (n : Numeral) : Numeral where
  whole := n.whole.take 128 ++ List.replicate (n.whole.length - 128) 48
  fraction := n.fraction.map (List.take (128 - n.whole.length))
  exponent := n.exponent.map fun e => (e.1, e.2.1, readExponent e.2.2)

/-- No sum overflows for the literal and the text behind it, and the double is infinity if the
literal is beyond the range of doubles, and zero if it is at most half of the smallest one. -/
structure InRange (n : Numeral) (q : List UInt8) : Prop where
  exponent : ∀ e sign digits, n.exponent = some (e, sign, digits) →
    ∀ a, a <+: digits → exponentDigits a < 2 ^ 31
  sums : strtodDouble (n.text ++ q) ≠ .error .fault
  large : 2 ^ (1024 : ℤ) ≤ value n →
    strtodDouble (n.text ++ q) = .ok (some (double.infinity, q))
  small : value n ≤ 2 ^ (-1075 : ℤ) → strtodDouble (n.text ++ q) = .ok (some (0, q))

/-- No sum overflows, and the shortened literal is near the end of the range that the literal is
beyond. -/
structure Agrees (n : Numeral) (large small : ℚ) : Prop where
  fits : Fits n
  large : 2 ^ (1024 : ℤ) ≤ value n → large ≤ value (shorten n)
  small : value n ≤ 2 ^ (-1075 : ℤ) → value (shorten n) ≤ small

/-! ## The shortened literal -/

theorem foldl_readBehind {exp : ℕ} (h : ∀ c ∈ digits, isDigit c = true) :
    (readBehind exp digits).foldl (fun n c => 10 * n + (c - 48).toNat) exp =
      (exponentLoop exp digits).1 := by
  induction digits generalizing exp with
  | nil => rfl
  | cons c digits ih =>
    by_cases hgrows : exp < (2 ^ 31 - 1 - 9) / 10
    · rw [readBehind, if_pos hgrows, List.foldl_cons, exponentLoop,
        if_pos (h c List.mem_cons_self), if_pos hgrows, Nat.mul_comm 10]
      exact ih fun d hd => h d (List.mem_cons_of_mem _ hd)
    · rw [readBehind, if_neg hgrows, exponentLoop_stuck hgrows]
      rfl

theorem digitsValue_readExponent (h : ∀ c ∈ digits, isDigit c = true) :
    digitsValue (readExponent digits) = exponentDigits digits := by
  cases digits with
  | nil => rfl
  | cons c digits =>
    rw [readExponent, digitsValue, List.foldl_cons, Nat.mul_zero, Nat.zero_add]
    exact foldl_readBehind fun d hd => h d (List.mem_cons_of_mem _ hd)

theorem exactExponent_shorten (h : n.Scanned) :
    exactExponent (shorten n).exponent = exponentValue n.exponent := by
  unfold shorten
  cases hsome : n.exponent with
  | none => rfl
  | some exponent =>
    obtain ⟨e, sign, digits⟩ := exponent
    simp only [Option.map_some, exactExponent, exponentValue,
      digitsValue_readExponent (exponent_digits h hsome).2]

theorem digitsValue_zeros (k : ℕ) : digitsValue (List.replicate k 48) = 0 := by
  induction k with
  | zero => rfl
  | succ k ih =>
    rw [List.replicate_succ, digitsValue_cons, ih]
    simp

/-- What is handed on is the shortened literal. -/
theorem value_shorten (h : n.Scanned) :
    value (shorten n) = digitsValue n.kept * 10 ^ n.power := by
  have hexponent := exactExponent_shorten h
  have hfraction : (shorten n).fraction.getD [] =
      (n.fraction.getD []).take (128 - n.whole.length) := by
    unfold shorten
    cases n.fraction with
    | none => simp
    | some digits => rfl
  have hroom : 128 - (n.whole.take 128).length = 128 - n.whole.length := by
    rw [List.length_take]
    omega
  have hdigits : digitsOf (shorten n) = n.whole.take 128 ++
      List.replicate (n.whole.length - 128) 48 ++
        (n.fraction.getD []).take (128 - n.whole.length) := by
    rw [digitsOf, hfraction]
    rfl
  have hsum : ∀ k e : ℤ, k + (e - (0 : ℕ)) = k - (0 : ℕ) + e := by
    intro k e
    push_cast
    ring
  unfold value
  rw [hexponent, hfraction, hdigits, Numeral.kept, Numeral.power, hroom]
  rcases Nat.le_total n.whole.length 128 with hle | hle
  · have hlength : (n.whole.take 128).length = n.whole.length := by
      rw [List.length_take]
      omega
    rw [hlength, Nat.sub_self, Nat.sub_eq_zero_of_le hle, List.replicate_zero, List.append_nil]
    congr 2
    push_cast
    ring
  · have hlength : (n.whole.take 128).length = 128 := by
      rw [List.length_take]
      omega
    rw [hlength, Nat.sub_eq_zero_of_le hle, List.take_zero, List.append_nil, List.append_nil,
      digitsValue_append, digitsValue_zeros, Nat.add_zero, List.length_replicate,
      List.length_nil, Nat.cast_mul, Nat.cast_pow, mul_assoc, ← zpow_natCast,
      Nat.cast_ofNat, ← zpow_add₀ (by norm_num), hsum]

/-! ## The ends of the range -/

theorem Nearly.le_infinity (h : Nearly x word) : word ≤ double.infinity := by
  obtain ⟨⟨c, hrounded, hword⟩, -⟩ := h
  have hmax := hrounded.le_infinity
  omega

theorem value_largest :
    double.value (double.infinity - 1) = 2 ^ (1024 : ℤ) - 2 ^ (971 : ℤ) := by
  have hnext := Lib.BinaryFormat.value_add_exponent (f := double) (double.infinity - 1)
  have hexponent : double.exponent (double.infinity - 1) = 971 := by decide
  rw [show double.infinity - 1 + 1 = double.infinity by decide, value_infinity, hexponent] at hnext
  linarith

theorem zpow_quarter (e : ℤ) : (2 : ℚ) ^ (e + 2) = 4 * 2 ^ e := by
  rw [zpow_add₀ (by norm_num)]
  norm_num
  ring

/-- What is within an eighth of a unit below infinity is infinity. -/
theorem Nearly.eq_infinity (h : Nearly x word)
    (hx : 2 ^ (1024 : ℤ) - 2 ^ (969 : ℤ) ≤ x) : word = double.infinity := by
  have hle := h.le_infinity
  by_contra hne
  have hlt : word < double.infinity := by omega
  have hupper := h.2 hlt
  have hmono := Lib.BinaryFormat.value_strictMono (f := double)
  have hword := hmono.monotone (show word ≤ double.infinity - 1 by omega)
  have hnext := hmono.monotone (show word + 1 ≤ double.infinity by omega)
  have hquarter : (2 : ℚ) ^ (971 : ℤ) = 4 * 2 ^ (969 : ℤ) := zpow_quarter 969
  rw [value_largest] at hword
  rw [value_infinity] at hnext
  rw [hquarter] at hword
  generalize (2 : ℚ) ^ (1024 : ℤ) = infinity at *
  generalize (2 : ℚ) ^ (969 : ℤ) = unit at *
  linarith

theorem Nearly.le_of_infinity (h : Nearly x double.infinity) :
    2 ^ (1024 : ℤ) - 2 ^ (970 : ℤ) ≤ x := by
  obtain ⟨⟨c, hrounded, hword⟩, -⟩ := h
  have hmax := hrounded.le_infinity
  obtain rfl : c = double.infinity := by omega
  have hlt := hrounded.lt (show double.infinity - 1 < double.infinity by decide)
  have hnear := hrounded.nearest (double.infinity - 1) (Nat.sub_le _ _)
  have hdouble : (2 : ℚ) ^ (971 : ℤ) = 2 * 2 ^ (970 : ℤ) := by
    rw [show (971 : ℤ) = 970 + 1 by norm_num, zpow_add_one₀ (by norm_num)]
    ring
  rw [value_largest] at hlt hnear
  rw [value_infinity] at hnear
  rw [hdouble] at hlt hnear
  generalize (2 : ℚ) ^ (1024 : ℤ) = infinity at *
  generalize (2 : ℚ) ^ (970 : ℤ) = unit at *
  have hpos : |x - (infinity - 2 * unit)| = x - (infinity - 2 * unit) :=
    abs_of_pos (by linarith)
  have habs := neg_abs_le (x - infinity)
  linarith

/-- What is at most half of the smallest number is zero. -/
theorem Nearly.eq_zero (h : Nearly x word) (hzero : 0 ≤ x) (hx : x ≤ 2 ^ (-1075 : ℤ)) :
    word = 0 := by
  obtain ⟨⟨c, hrounded, hword⟩, -⟩ := h
  have hnear := hrounded.nearest 0 (Nat.zero_le _)
  have hunit := Lib.BinaryFormat.two_zpow_pos (-1075)
  have hdouble : (2 : ℚ) ^ (-1074 : ℤ) = 2 * 2 ^ (-1075 : ℤ) := by
    rw [show (-1074 : ℤ) = -1075 + 1 by norm_num, zpow_add_one₀ (by norm_num)]
    ring
  have hmono := Lib.BinaryFormat.value_strictMono (f := double)
  rw [value_zero, sub_zero, abs_of_nonneg hzero] at hnear
  by_contra hne
  have hc : 0 < c := by omega
  have hone := hmono.monotone (show 1 ≤ c from hc)
  rw [value_one] at hone
  rcases Nat.lt_or_ge 1 c with hlt | hle
  · have htwo := hmono hlt
    rw [value_one] at htwo
    have habs := neg_abs_le (x - double.value c)
    linarith
  · obtain rfl : c = 1 := by omega
    have habs := neg_abs_le (x - double.value 1)
    have heq : |x - double.value 1| = |x - double.value 0| := by
      rw [value_zero, sub_zero, abs_of_nonneg hzero]
      rw [value_one] at habs hnear ⊢
      linarith
    have heven := hrounded.even 0 (Nat.zero_le _) (by omega) heq
    omega

theorem Nearly.lt_of_zero (h : Nearly x 0) : x < 3 * 2 ^ (-1076 : ℤ) := by
  have hupper := h.2 (by decide)
  have hquarter := zpow_quarter (-1076)
  rw [show (-1076 : ℤ) + 2 = -1074 by norm_num] at hquarter
  rw [value_zero, Nat.zero_add, value_one] at hupper
  linarith

/-! ## The conversion -/

/-- The double of a literal whose sums do not overflow. -/
theorem strtodDouble_longest (h : IsLongest n q) :
    (Fits n → ∃ word, strtodDouble (n.text ++ q) = .ok (some (word, q)) ∧
      Nearly (value (shorten n)) word) ∧
    (¬Fits n → strtodDouble (n.text ++ q) = .error .fault) := by
  obtain ⟨hfits, hfault⟩ := strtod_longest h (exponentValue_lt h.scanned)
  rw [← sumsFit_iff h.scanned]
  constructor
  · intro hsums
    have hlength : n.kept.length ≤ 128 := by
      rw [kept_eq, List.length_take]
      exact Nat.min_le_left _ _
    have hmin : -2 ^ 31 ≤ n.power := by
      have hlower := hsums.2.1
      unfold keptFraction at hlower
      unfold Numeral.power
      rw [List.length_take, List.length_take] at *
      omega
    obtain ⟨word, hword, hnear⟩ :=
      nearly_strtodInternal (kept_isDigit h.scanned) hlength hmin
    rw [← value_shorten h.scanned] at hnear
    refine ⟨word, ?_, hnear⟩
    unfold strtodDouble
    rw [hfits hsums, ok_bind]
    simp only
    rw [hword, ok_bind]
  · intro hsums
    unfold strtodDouble
    rw [hfault hsums]
    rfl

theorem value_nonneg (n : Numeral) : 0 ≤ value n :=
  mul_nonneg (Nat.cast_nonneg _) (zpow_nonneg (by norm_num) _)

theorem exponentDigits_lt (h : ∀ c ∈ digits, isDigit c = true) :
    exponentDigits digits < 2 ^ 31 := by
  rcases digits with - | ⟨c, digits⟩
  · decide
  · have hlt := (exponentDigits_value (List.cons_ne_nil c digits) h).2.1
    omega

theorem inRange_of_agrees (h : IsLongest n q)
    (hagrees : Agrees n (2 ^ (1024 : ℤ) - 2 ^ (969 : ℤ)) (2 ^ (-1075 : ℤ))) : InRange n q := by
  obtain ⟨word, hword, hnear⟩ := (strtodDouble_longest h).1 hagrees.fits
  refine ⟨fun e sign digits hsome a ha => ?_, ?_, fun hlarge => ?_, fun hsmall => ?_⟩
  · apply exponentDigits_lt
    exact fun c hc => (exponent_digits h.scanned hsome).2 c (ha.subset hc)
  · rw [hword]
    exact nofun
  · rw [hword, hnear.eq_infinity (hagrees.large hlarge)]
  · rw [hword, hnear.eq_zero (value_nonneg _) (hagrees.small hsmall)]

theorem agrees_of_inRange (h : IsLongest n q) (hrange : InRange n q) :
    Agrees n (2 ^ (1024 : ℤ) - 2 ^ (970 : ℤ)) (3 * 2 ^ (-1076 : ℤ)) := by
  obtain ⟨hok, hfault⟩ := strtodDouble_longest h
  have hfits : Fits n := by
    by_contra hfits
    exact hrange.sums (hfault hfits)
  obtain ⟨word, hword, hnear⟩ := hok hfits
  refine ⟨hfits, fun hlarge => ?_, fun hsmall => ?_⟩
  · have hinfinity := hword.symm.trans (hrange.large hlarge)
    obtain rfl := (Prod.mk.inj (Option.some.inj (Except.ok.inj hinfinity))).1
    exact hnear.le_of_infinity
  · have hzero := hword.symm.trans (hrange.small hsmall)
    obtain rfl := (Prod.mk.inj (Option.some.inj (Except.ok.inj hzero))).1
    exact hnear.lt_of_zero.le

/-- A text begins with a longest number, or with none. -/
theorem exists_longest (text : List UInt8) :
    (∀ (n : Numeral) (q : List UInt8), n.Scanned → text ≠ n.text ++ q) ∨
      ∃ (n : Numeral) (q : List UInt8), text = n.text ++ q ∧ IsLongest n q := by
  by_cases hsome : ∃ k ≤ text.length, ∃ (n : Numeral) (q : List UInt8), n.Scanned ∧
      text = n.text ++ q ∧ n.text.length = k
  · right
    classical
    obtain ⟨k, hk, hnumber⟩ := hsome
    obtain ⟨n, q, hscanned, htext, hlength⟩ := Nat.findGreatest_spec (P := fun k =>
      ∃ (n : Numeral) (q : List UInt8), n.Scanned ∧ text = n.text ++ q ∧ n.text.length = k)
      hk hnumber
    refine ⟨n, q, htext, hscanned, fun m p hm hsame => ?_⟩
    rw [hlength]
    refine Nat.le_findGreatest ?_ ⟨m, p, hm, htext.trans hsame, rfl⟩
    rw [htext, hsame, List.length_append]
    exact Nat.le_add_right _ _
  · left
    rintro n q hscanned rfl
    refine hsome ⟨n.text.length, ?_, n, q, hscanned, rfl, rfl⟩
    rw [List.length_append]
    exact Nat.le_add_right _ _

/-- A text that does not begin with a number has no digit in front of its exponent. -/
theorem strtodDouble_none
    (h : ∀ (n : Numeral) (q : List UInt8), n.Scanned → text ≠ n.text ++ q) :
    strtodDouble text = .ok none := by
  obtain ⟨whole, p, rfl, hwhole, hp, hspan⟩ := span_cases text
  have hempty : whole = [] := by
    by_contra hne
    refine h ⟨whole, none, none⟩ p ⟨hwhole, by simp, by simp, by simpa using hne⟩ ?_
    simp [Numeral.text, fractionText, exponentText]
  subst hempty
  rw [List.nil_append] at h hspan ⊢
  have hfraction : (scanFraction p).1 = [] := by
    by_contra hne
    unfold scanFraction at hne
    split at hne
    · rename_i rest
      obtain ⟨digits, q, rfl, hdigits, -, hrest⟩ := span_cases rest
      rw [hrest] at hne
      refine h ⟨[], some digits, none⟩ q ⟨by simp, ?_, by simp, by simpa using hne⟩ ?_
      · intro fraction hsome
        rw [← Option.some.inj hsome]
        exact hdigits
      · simp [Numeral.text, fractionText, exponentText]
    · exact hne rfl
  have hloop := wholeLoop_span (p := p)
  rw [hspan, if_pos (by norm_num)] at hloop
  have hpoint := @pointLoop_scan p [] (by decide)
  rw [hfraction] at hpoint
  unfold strtodDouble strtod
  rw [hloop, ok_bind]
  simp only [List.take_nil, hpoint, ok_bind]
  rfl

/-- Where the shortened literal is near the same end of the range no sum overflows, and literals
beyond the range are infinity or zero; and only there. -/
theorem strtodDouble_inRange (text : List UInt8) :
    (strtodDouble text = .ok none ∧
      ∀ (n : Numeral) (q : List UInt8), n.Scanned → text ≠ n.text ++ q) ∨
    ∃ (n : Numeral) (q : List UInt8), text = n.text ++ q ∧ IsLongest n q ∧
      (Agrees n (2 ^ (1024 : ℤ) - 2 ^ (969 : ℤ)) (2 ^ (-1075 : ℤ)) → InRange n q) ∧
      (InRange n q → Agrees n (2 ^ (1024 : ℤ) - 2 ^ (970 : ℤ)) (3 * 2 ^ (-1076 : ℤ))) := by
  rcases exists_longest text with hnone | ⟨n, q, rfl, hlongest⟩
  · exact .inl ⟨strtodDouble_none hnone, hnone⟩
  · exact .inr ⟨n, q, rfl, hlongest, inRange_of_agrees hlongest, agrees_of_inRange hlongest⟩

/-- `.00000000000000000001e-2147483629`. -/
def manyZeros : Numeral :=
  ⟨[], some (List.replicate 19 48 ++ [49]),
    some (101, some 45, [50, 49, 52, 55, 52, 56, 51, 54, 50, 57])⟩

/-- The exponent of `.00000000000000000001e-2147483629` overflows when it is reduced by the number
of the digits behind the point. -/
theorem not_strtodDouble_inRange : ¬∀ text n q, text = Numeral.text n ++ q → IsLongest n q →
    text.length < 2 ^ 31 → InRange n q := by
  intro h
  have hscanned : manyZeros.Scanned := by
    refine ⟨List.all_eq_true.mp rfl, ?_, ?_, by decide⟩
    · rintro digits ⟨⟩
      exact List.all_eq_true.mp rfl
    · rintro e ⟨⟩
      refine ⟨.inl rfl, ?_, by decide, List.all_eq_true.mp rfl⟩
      rintro sign ⟨⟩
      exact .inl rfl
  have hrange := h _ manyZeros [] rfl (isLongest_nil hscanned) (by decide)
  exact hrange.sums (by decide +kernel)

end Njs.Decimal
