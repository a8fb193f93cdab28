import Njs.Decimal.Accuracy

/-!
# Numbers as strings

`njs_number_to_string` writes the digits that `njs_grisu2` finds. Only an integer is written as
the digits of an integer.
-/

namespace Njs.Decimal

open Json

variable {digits : List UInt8} {n : ℕ} {q : ℚ}

/-- The rounding of an exact value to a double. It is monotone, and integers of at most 53 bits
are doubles. -/
structure Rounding where
  round : ℚ → Number
  exact : ∀ n : ℕ, n < 2 ^ 53 → round n = .finite n
  mono : ∀ a b u v, a ≤ b → round a = .finite u → round b = .finite v → u ≤ v

/-- A value that is a double. -/
def Rounding.IsDouble (r : Rounding) : Number → Prop
  | .finite q => r.round q = .finite q
  | _ => True

/-- The number that digits with a point stand for: the point is behind the first `point` digits,
or as many places behind all of them. -/
def pointValue (printed : List UInt8 × ℤ) : ℚ :=
  digitsValue printed.1 * 10 ^ (printed.2 - printed.1.length)

/-- `njs_grisu2`, the digits and the point of a positive double: they are read back as this
double, and those of an integer below `2 ^ 53` are its own, without zeros at the end. -/
structure Grisu (r : Rounding) where
  grisu2 : ℚ → List UInt8 × ℤ
  nonempty : ∀ q, 0 < q → (grisu2 q).1 ≠ []
  digits : ∀ q, 0 < q → ∀ c ∈ (grisu2 q).1, isDigit c = true
  leading : ∀ q, 0 < q → (grisu2 q).1.head? ≠ some 48
  roundTrip : ∀ q, 0 < q → r.round q = .finite q → r.round (pointValue (grisu2 q)) = .finite q
  integer : ∀ n : ℕ, 0 < n → n < 2 ^ 53 →
    pointValue (grisu2 n) = n ∧ (grisu2 n).1.length ≤ (grisu2 n).2

/-- `njs_write_exponent`. -/
def writeExponent (exp : ℤ) : List UInt8 :=
  if exp < 0 then 45 :: decimal (-exp).toNat else 43 :: decimal exp.toNat

/-- `njs_dtoa_format`. -/
def dtoaFormat (digits : List UInt8) (point : ℤ) : List UInt8 :=
  if digits.length ≤ point ∧ point ≤ 21 then
    digits ++ List.replicate (point - digits.length).toNat 48
  else if 0 < point ∧ point ≤ 21 then
    digits.take point.toNat ++ 46 :: digits.drop point.toNat
  else if -6 < point ∧ point ≤ 0 then
    48 :: 46 :: List.replicate (-point).toNat 48 ++ digits
  else if digits.length = 1 then digits ++ 101 :: writeExponent (point - 1)
  else digits.take 1 ++ 46 :: digits.drop 1 ++ 101 :: writeExponent (point - 1)

variable {r : Rounding}

/-- `njs_dtoa`. -/
def Grisu.dtoa (g : Grisu r) (q : ℚ) : List UInt8 :=
  if q = 0 then [48]
  else if q < 0 then 45 :: dtoaFormat (g.grisu2 (-q)).1 (g.grisu2 (-q)).2
  else dtoaFormat (g.grisu2 q).1 (g.grisu2 q).2

/-- `njs_number_to_string`. -/
def Grisu.numberToString (g : Grisu r) : Number → List UInt8
  | .nan => [78, 97, 78]
  | .negInfinity => [45, 73, 110, 102, 105, 110, 105, 116, 121]
  | .posInfinity => [73, 110, 102, 105, 110, 105, 116, 121]
  | .finite q => g.dtoa q

/-! ## Canonical digits -/

theorem digitsValue_eq_ofDigits (digits : List UInt8) :
    digitsValue digits = Nat.ofDigits 10 (digits.reverse.map fun c => (c - 48).toNat) := by
  induction digits using List.reverseRecOn with
  | nil => rfl
  | append_singleton digits c ih =>
    rw [digitsValue_append, ih, List.reverse_append, List.reverse_singleton, List.singleton_append,
      List.map_cons, Nat.ofDigits_cons]
    simp [digitsValue]
    ring

/-- Digits without a zero in front are those of the number they stand for. -/
theorem decimal_digitsValue (h : ∀ c ∈ digits, isDigit c = true) (hne : digits ≠ [])
    (hhead : digits.head? ≠ some 48) : decimal (digitsValue digits) = digits := by
  obtain ⟨c, rest, rfl⟩ := List.exists_cons_of_ne_nil hne
  have hc : c ≠ 48 := fun heq => hhead (by rw [heq]; rfl)
  have hdigit : (c - 48).toNat ≠ 0 := by
    intro hzero
    have hadd := digit_add (h c List.mem_cons_self)
    rw [hzero, Nat.zero_add] at hadd
    exact hc (UInt8.toNat_inj.mp hadd.symm)
  have hvalue : digitsValue (c :: rest) ≠ 0 := by
    rw [digitsValue_cons]
    have hpow : 0 < 10 ^ rest.length := Nat.pow_pos (by omega)
    have hmul := Nat.mul_pos (Nat.pos_of_ne_zero hdigit) hpow
    omega
  have hdigits : Nat.digits 10 (digitsValue (c :: rest)) =
      (c :: rest).reverse.map fun c => (c - 48).toNat := by
    rw [digitsValue_eq_ofDigits]
    refine Nat.digits_ofDigits 10 (by omega) _ (fun d hd => ?_) fun hnil => ?_
    · obtain ⟨d, hmem, rfl⟩ := List.mem_map.mp hd
      exact digit_lt (h d (List.mem_reverse.mp hmem))
    · simpa using hdigit
  rw [decimal, if_neg hvalue, hdigits, ← List.map_reverse, List.reverse_reverse, List.map_map]
  refine (List.map_congr_left fun d hd => ?_).trans (List.map_id _)
  have hadd := digit_add (h d hd)
  have hlt := digit_lt (h d hd)
  have hrange := d.toNat_lt
  apply UInt8.toNat_inj.mp
  simp only [Function.comp_apply, id_eq, UInt8.toNat_add, UInt8.reduceToNat, Nat.toUInt8,
    UInt8.toNat_ofNat']
  omega

/-! ## Integers -/

theorem not_mem_decimal {c : UInt8} (hc : isDigit c = false) : c ∉ decimal n := by
  intro hmem
  rw [decimal_isDigit n c hmem] at hc
  cases hc

theorem pointValue_of_le {point : ℤ} (h : digits.length ≤ point) :
    pointValue (digits, point) =
      digitsValue (digits ++ List.replicate (point - digits.length).toNat 48) := by
  have hzeros : ∀ k : ℕ, digitsValue (List.replicate k 48) = 0 := by
    intro k
    induction k with
    | zero => rfl
    | succ k ih => simp [List.replicate_succ, digitsValue_cons, ih]
  obtain ⟨k, hk⟩ := Int.eq_ofNat_of_zero_le (sub_nonneg.mpr h)
  rw [digitsValue_append, hzeros, Nat.add_zero, List.length_replicate, pointValue]
  simp only [hk, zpow_natCast, Int.toNat_natCast]
  push_cast
  rfl

/-- Digits that are written with a point or an exponent are not those of an integer. -/
theorem dtoaFormat_eq_decimal {point : ℤ} (h : dtoaFormat digits point = decimal n) :
    pointValue (digits, point) = n := by
  have hpoint : (46 : UInt8) ∉ decimal n := not_mem_decimal (by decide)
  have hexponent : (101 : UInt8) ∉ decimal n := not_mem_decimal (by decide)
  rw [← h] at hpoint hexponent
  unfold dtoaFormat at h hpoint hexponent
  by_cases hinteger : digits.length ≤ point ∧ point ≤ 21
  · rw [if_pos hinteger] at h
    rw [pointValue_of_le hinteger.1, h, digitsValue_decimal]
  · rw [if_neg hinteger] at hpoint hexponent
    split_ifs at hpoint hexponent
    · simp at hpoint
    · simp at hpoint
    · simp at hexponent
    · simp at hpoint

/-- The digits of an integer are written as they are. -/
theorem dtoaFormat_integer {point : ℤ} (hn : n < 2 ^ 53) (hne : digits ≠ [])
    (hdigits : ∀ c ∈ digits, isDigit c = true) (hhead : digits.head? ≠ some 48)
    (hvalue : pointValue (digits, point) = n) (hle : digits.length ≤ point) :
    dtoaFormat digits point = decimal n := by
  rw [pointValue_of_le hle, Nat.cast_inj] at hvalue
  have hall : ∀ c ∈ digits ++ List.replicate (point - digits.length).toNat 48,
      isDigit c = true := by
    intro c hc
    rcases List.mem_append.mp hc with hc | hc
    · exact hdigits c hc
    · rw [List.eq_of_mem_replicate hc]
      rfl
  have hcanonical := decimal_digitsValue hall (by simp [hne])
    (by rwa [List.head?_append_of_ne_nil _ hne])
  rw [hvalue] at hcanonical
  have hlength := congrArg List.length hcanonical
  rw [List.length_append, List.length_replicate] at hlength
  have hshort := length_decimal_le hn
  rw [dtoaFormat, if_pos ⟨hle, by omega⟩, hcanonical]

theorem cons_ne_decimal (c : UInt8) (hc : isDigit c = false) (rest : List UInt8) :
    c :: rest ≠ decimal n := by
  intro heq
  exact not_mem_decimal (n := n) hc (heq ▸ List.mem_cons_self)

/-- The string of a double is the decimal representation of an integer only if the double is
this integer. -/
theorem Grisu.numberToString_eq_decimal_iff (g : Grisu r) {x : Number} (hx : r.IsDouble x)
    (hn : n < 2 ^ 53) : g.numberToString x = decimal n ↔ x = .finite n := by
  cases x with
  | nan => exact iff_of_false (cons_ne_decimal 78 (by decide) _) (by rintro ⟨⟩)
  | posInfinity => exact iff_of_false (cons_ne_decimal 73 (by decide) _) (by rintro ⟨⟩)
  | negInfinity => exact iff_of_false (cons_ne_decimal 45 (by decide) _) (by rintro ⟨⟩)
  | finite q =>
    rw [Number.finite.injEq]
    unfold Grisu.numberToString Grisu.dtoa
    rcases lt_trichotomy q 0 with hneg | rfl | hpos
    · simp only [if_neg hneg.ne, if_pos hneg]
      refine iff_of_false (cons_ne_decimal 45 (by decide) _) ?_
      rintro rfl
      exact absurd (Nat.cast_nonneg n) (not_le.mpr hneg)
    · simp only [if_true]
      constructor
      · intro heq
        have hvalue := digitsValue_decimal n
        rw [← heq] at hvalue
        rw [← hvalue]
        rfl
      · intro heq
        have hzero : n = 0 := by exact_mod_cast heq.symm
        rw [hzero]
        rfl
    · simp only [if_neg hpos.ne', if_neg (not_lt.mpr hpos.le)]
      constructor
      · intro heq
        have hround := g.roundTrip q hpos hx
        rw [dtoaFormat_eq_decimal heq, r.exact n hn] at hround
        exact (Number.finite.inj hround).symm
      · rintro rfl
        have hzero : 0 < n := by exact_mod_cast hpos
        obtain ⟨hvalue, hle⟩ := g.integer n hzero hn
        exact dtoaFormat_integer hn (g.nonempty _ hpos) (g.digits _ hpos) (g.leading _ hpos)
          hvalue hle

end Njs.Decimal
