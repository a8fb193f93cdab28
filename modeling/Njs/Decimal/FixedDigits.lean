import Njs.Decimal.Fixed
import Mathlib.Data.List.Induction
import Mathlib.Algebra.Order.Floor.Semiring
import Mathlib.Data.Rat.Floor
import Mathlib.Tactic.FieldSimp

/-!
# Writing digits into a buffer

The digits of a number are written backwards and exchanged, or from the last one to the first.
Rounding up carries through the digits. One way or the other the bytes are digits of the number.
-/

namespace Njs.Decimal

variable {a b start p z : List UInt8} {m n k : ℕ} {c : UInt8}

/-- Some digits and the number they stand for. -/
structure IsDigits (l : List UInt8) (n : ℕ) : Prop where
  digits : ∀ c ∈ l, isDigit c = true
  value : digitsValue l = n

theorem IsDigits.nil : IsDigits [] 0 := ⟨by simp, rfl⟩

theorem IsDigits.append (ha : IsDigits a m) (hb : IsDigits b n) :
    IsDigits (a ++ b) (m * 10 ^ b.length + n) := by
  refine ⟨fun c hc => ?_, by rw [digitsValue_append, ha.value, hb.value]⟩
  rcases List.mem_append.mp hc with hc | hc
  · exact ha.digits c hc
  · exact hb.digits c hc

theorem isDigits_decimal (n : ℕ) : IsDigits (decimal n) n :=
  ⟨decimal_isDigit n, digitsValue_decimal n⟩

theorem isDigits_zeros (k : ℕ) : IsDigits (List.replicate k 48) 0 := by
  refine ⟨fun c hc => ?_, ?_⟩
  · rw [List.eq_of_mem_replicate hc]
    decide
  · induction k with
    | zero => rfl
    | succ k ih =>
      rw [List.replicate_succ, digitsValue_cons, ih]
      simp

theorem isDigits_digitChar (hn : n < 10) : IsDigits [digitChar n] n := by
  interval_cases n
  all_goals exact ⟨List.all_eq_true.mp rfl, by decide⟩

theorem decimal_eq_reverse (hn : 0 < n) :
    decimal n = ((Nat.digits 10 n).map digitChar).reverse := by
  rw [decimal, if_neg (by omega), List.map_reverse]
  rfl

theorem length_decimal_le (hn : n < 10 ^ k) (hk : 0 < k) : (decimal n).length ≤ k := by
  unfold decimal
  split_ifs with hzero
  · rw [List.length_singleton]
    omega
  · rw [List.length_map, List.length_reverse]
    exact (Nat.digits_length_le_iff (by omega) n).mpr hn

/-! ## Loops -/

theorem put_ok (h : start.length < 128) : put start c = .ok (start ++ [c]) := if_pos h

theorem fillLoop_eq (h : start.length + (Nat.digits 10 n).length ≤ 128) :
    fillLoop n start = .ok (start ++ (Nat.digits 10 n).map digitChar) := by
  induction n using Nat.strong_induction_on generalizing start with
  | h n ih =>
    rw [fillLoop]
    split_ifs with hzero
    · rw [hzero, Nat.digits_zero, List.map_nil, List.append_nil]
    · rw [Nat.digits_def' (by omega) (by omega)] at h ⊢
      rw [List.length_cons] at h
      rw [put_ok (by omega), ok_bind, ih (n / 10) (by omega) (by simp; omega), List.map_cons,
        List.append_assoc]
      rfl

/-- The exchange of the bytes between two indexes reverses them. -/
theorem swapLoop_eq (a b p : List UInt8) :
    swapLoop (a ++ b ++ p) a.length (a.length + b.length - 1) = .ok (a ++ b.reverse ++ p) := by
  induction b using List.bidirectionalRec generalizing a p with
  | nil => rw [swapLoop, if_neg (by simp), List.reverse_nil]
  | singleton c => rw [swapLoop, if_neg (by simp), List.reverse_singleton]
  | cons_append c b d ih =>
    have hfirst : (a ++ (c :: (b ++ [d])) ++ p)[a.length]? = some c := by simp
    have hlast : (a ++ (c :: (b ++ [d])) ++ p)[a.length + (c :: (b ++ [d])).length - 1]? =
        some d := by
      rw [show a.length + (c :: (b ++ [d])).length - 1 = a.length + (b.length + 1) by simp]
      simp
    have hset : ((a ++ (c :: (b ++ [d])) ++ p).set a.length d).set
        (a.length + (c :: (b ++ [d])).length - 1) c = (a ++ [d]) ++ b ++ (c :: p) := by
      rw [show a.length + (c :: (b ++ [d])).length - 1 = a.length + (b.length + 1) by simp]
      simp
    have hnext := ih (a ++ [d]) (c :: p)
    rw [swapLoop, if_pos (by simp), hfirst, hlast]
    simp only [hset]
    rw [show a.length + (c :: (b ++ [d])).length - 1 - 1 = (a ++ [d]).length + b.length - 1 by
      simp, show a.length + 1 = (a ++ [d]).length by simp, hnext]
    simp

/-- The digits of a number other than zero. -/
theorem fillDigits32_eq (hn : 0 < n) (h : start.length + (decimal n).length ≤ 128) :
    fillDigits32 n start = .ok (start ++ decimal n) := by
  have hdecimal := decimal_eq_reverse hn
  have hlength : (decimal n).length = (Nat.digits 10 n).length := by
    rw [hdecimal, List.length_reverse, List.length_map]
  have hpos : 0 < (decimal n).length := List.length_pos_iff.mpr (decimal_ne_nil n)
  have hswap := swapLoop_eq start ((Nat.digits 10 n).map digitChar) []
  rw [List.append_nil, List.append_nil, ← hdecimal, List.length_map] at hswap
  rw [fillDigits32, fillLoop_eq (by omega), ok_bind, List.length_append, List.length_map,
    show (start.length + (Nat.digits 10 n).length + 2 ^ 64 - 1) % 2 ^ 64 =
      start.length + (Nat.digits 10 n).length - 1 by omega, hswap]

theorem fixedLoop_append (n k : ℕ) (p : List UInt8) :
    fixedLoop n k p = fixedLoop n k [] ++ p := by
  induction k generalizing n p with
  | zero => rfl
  | succ k ih =>
    rw [fixedLoop, fixedLoop, ih, ih (n / 10) [digitChar (n % 10)], List.append_assoc]
    rfl

theorem fixedLoop_spec (n k : ℕ) :
    (fixedLoop n k []).length = k ∧ IsDigits (fixedLoop n k []) (n % 10 ^ k) := by
  induction k generalizing n with
  | zero =>
    rw [pow_zero, Nat.mod_one]
    exact ⟨rfl, .nil⟩
  | succ k ih =>
    obtain ⟨hlength, hdigits⟩ := ih (n / 10)
    have hlast := hdigits.append (isDigits_digitChar (Nat.mod_lt n (show 0 < 10 by omega)))
    have hvalue : n / 10 % 10 ^ k * 10 + n % 10 = n % 10 ^ (k + 1) := by
      rw [pow_succ', Nat.mod_mul, Nat.add_comm, Nat.mul_comm]
    rw [List.length_singleton, pow_one, hvalue] at hlast
    rw [fixedLoop, fixedLoop_append]
    exact ⟨by rw [List.length_append, hlength, List.length_singleton], hlast⟩

theorem fillDigits32FixedLength_eq (h : start.length + k ≤ 128) :
    fillDigits32FixedLength n k start = .ok (start ++ fixedLoop n k []) := if_pos h

/-- A number of 64 bits other than zero. -/
theorem fillDigits64_spec (hpos : 0 < n) (hn : n < 2 ^ 64) : ∃ digits,
    fillDigits64 n [] = .ok digits ∧ IsDigits digits n ∧ digits.length ≤ 20 := by
  have hpart : n / 10000000 / 10000000 % 2 ^ 32 = n / 10000000 / 10000000 :=
    Nat.mod_eq_of_lt (by omega)
  obtain ⟨hlength₁, hdigits₁⟩ := fixedLoop_spec (n / 10000000 % 10000000) 7
  obtain ⟨hlength₂, hdigits₂⟩ := fixedLoop_spec (n % 10000000) 7
  unfold fillDigits64
  simp only [hpart]
  split_ifs with hzero₀ hzero₁
  · have hlength := @length_decimal_le (n / 10000000 / 10000000) 6 (by omega) (by omega)
    rw [@fillDigits32_eq [] (n / 10000000 / 10000000) (by omega) (by simp; omega), ok_bind,
      fillDigits32FixedLength_eq (by simp; omega), ok_bind,
      fillDigits32FixedLength_eq (by simp [hlength₁]; omega)]
    have hall := ((isDigits_decimal (n / 10000000 / 10000000)).append hdigits₁).append hdigits₂
    refine ⟨_, rfl, ?_, ?_⟩
    · rw [List.nil_append]
      rw [hlength₁, hlength₂] at hall
      convert hall using 1
      omega
    · simp only [List.length_append, List.length_nil, hlength₁, hlength₂]
      omega
  · have hlength := @length_decimal_le (n / 10000000 % 10000000) 7 (by omega) (by omega)
    rw [@fillDigits32_eq [] (n / 10000000 % 10000000) (by omega) (by simp; omega), ok_bind,
      fillDigits32FixedLength_eq (by simp; omega)]
    have hall := (isDigits_decimal (n / 10000000 % 10000000)).append hdigits₂
    refine ⟨_, rfl, ?_, ?_⟩
    · rw [List.nil_append]
      rw [hlength₂] at hall
      convert hall using 1
      omega
    · simp only [List.length_append, List.length_nil, hlength₂]
      omega
  · have hlength := @length_decimal_le (n % 10000000) 7 (by omega) (by omega)
    rw [@fillDigits32_eq [] (n % 10000000) (by omega) (by simp; omega), List.nil_append]
    have hvalue : n % 10000000 = n := by omega
    refine ⟨_, rfl, ?_, by omega⟩
    rw [hvalue]
    exact isDigits_decimal n

/-- The last 17 digits of a number. -/
theorem fillDigits64FixedLength_spec (hn : n < 10 ^ 17) (h : start.length + 17 ≤ 128) :
    ∃ digits, fillDigits64FixedLength n start = .ok (start ++ digits) ∧ IsDigits digits n ∧
      digits.length = 17 := by
  have hpart : n / 10000000 / 10000000 % 2 ^ 32 = n / 10000000 / 10000000 :=
    Nat.mod_eq_of_lt (by omega)
  obtain ⟨hlength₀, hdigits₀⟩ := fixedLoop_spec (n / 10000000 / 10000000) 3
  obtain ⟨hlength₁, hdigits₁⟩ := fixedLoop_spec (n / 10000000 % 10000000) 7
  obtain ⟨hlength₂, hdigits₂⟩ := fixedLoop_spec (n % 10000000) 7
  have hall := (hdigits₀.append hdigits₁).append hdigits₂
  rw [hlength₁, hlength₂] at hall
  unfold fillDigits64FixedLength
  simp only [hpart]
  rw [fillDigits32FixedLength_eq (by omega), ok_bind,
    fillDigits32FixedLength_eq (by simp [hlength₀]; omega), ok_bind,
    fillDigits32FixedLength_eq (by simp [hlength₀, hlength₁]; omega), List.append_assoc,
    List.append_assoc, ← List.append_assoc (fixedLoop _ 3 [])]
  refine ⟨_, rfl, ?_, ?_⟩
  · convert hall using 1
    omega
  · simp only [List.length_append, hlength₀, hlength₁, hlength₂]

/-! ## Rounding up -/

theorem carryLoop_append (a : List UInt8) (c : UInt8) (z : List UInt8) :
    carryLoop (a ++ c :: z) a.length =
      if a = [] then (c :: z, false)
      else if c ≠ 58 then (a ++ c :: z, true)
      else carryLoop (a.dropLast ++ (a.getLastD 0 + 1) :: 48 :: z) (a.length - 1) := by
  induction a using List.reverseRecOn with
  | nil => rfl
  | append_singleton a d _ =>
    have hnext : (a ++ [d] ++ c :: z).getD (a.length + 1) 0 = c := by simp
    have hthis : (a ++ [d] ++ c :: z).getD a.length 0 = d := by simp
    have hset : ((a ++ [d] ++ c :: z).set (a.length + 1) 48).set a.length (d + 1) =
        a ++ (d + 1) :: 48 :: z := by
      simp
    rw [if_neg (by simp), List.length_append, List.length_singleton, carryLoop, hnext, hthis, hset]
    simp

/-- What the loop over a carry leaves: some digits, one that may be a ten if it is the first, and
zeros. -/
structure Carried (l : List UInt8) (returned : Bool) (value length : ℕ) : Prop where
  parts : ∃ b d j, l = b ++ d :: List.replicate j 48 ∧ (∀ e ∈ b, isDigit e = true) ∧
    48 ≤ d.toNat ∧ d.toNat ≤ 58 ∧ (returned = true → d ≠ 58) ∧ (returned = false → b = [])
  value : digitsValue l = value
  length : l.length = length

theorem digit_toNat (hlow : 48 ≤ c.toNat) : (c - 48).toNat = c.toNat - 48 := by
  have hlt := c.toNat_lt
  rw [UInt8.toNat_sub]
  simp only [UInt8.reduceToNat]
  omega

theorem isDigit_of_toNat (hlow : 48 ≤ c.toNat) (hhigh : c.toNat ≤ 57) : isDigit c = true := by
  have hsub := digit_toNat hlow
  rw [isDigit, decide_eq_true_eq, UInt8.le_iff_toNat_le, hsub]
  simp only [UInt8.reduceToNat]
  omega

theorem carryLoop_spec (ha : ∀ d ∈ a, isDigit d = true) (hlow : 48 ≤ c.toNat)
    (hhigh : c.toNat ≤ 58) (k : ℕ) :
    Carried (carryLoop (a ++ c :: List.replicate k 48) a.length).1
      (carryLoop (a ++ c :: List.replicate k 48) a.length).2
      (digitsValue (a ++ c :: List.replicate k 48)) (a.length + 1 + k) := by
  induction a using List.reverseRecOn generalizing c k with
  | nil =>
    refine ⟨⟨[], c, k, rfl, by simp, hlow, hhigh, nofun, fun _ => rfl⟩, rfl, ?_⟩
    simp [carryLoop]
    omega
  | append_singleton a d ih =>
    have hdigits : ∀ e ∈ a, isDigit e = true := fun e he => ha e (List.mem_append_left _ he)
    have hd := ha d (by simp)
    have hrange := Json.toNat_of_isDigit hd
    rw [carryLoop_append, if_neg (by simp)]
    by_cases hten : c = 58
    · have hnext : (d + 1).toNat = d.toNat + 1 := by
        rw [UInt8.toNat_add]
        simp only [UInt8.reduceToNat]
        omega
      have hthis := digit_toNat hrange.1
      have hmore : (d + 1 - 48).toNat = d.toNat + 1 - 48 := by
        rw [digit_toNat (by omega), hnext]
      have hvalue : digitsValue (a ++ [d] ++ c :: List.replicate k 48) =
          digitsValue (a ++ (d + 1) :: List.replicate (k + 1) 48) := by
        rw [List.append_assoc, List.singleton_append, digitsValue_append,
          digitsValue_append a ((d + 1) :: _), digitsValue_cons d, digitsValue_cons c,
          digitsValue_cons (d + 1), (isDigits_zeros _).value, (isDigits_zeros _).value, hten,
          hthis, hmore]
        simp only [List.length_cons, List.length_replicate]
        rw [show d.toNat + 1 - 48 = d.toNat - 48 + 1 by omega,
          show ((58 : UInt8) - 48).toNat = 10 by rfl, pow_succ]
        ring
      have hcarried := @ih (d + 1) hdigits (by omega) (by omega) (k + 1)
      rw [if_neg (not_not.mpr hten), List.dropLast_concat, List.getLastD_concat, List.length_append,
        List.length_singleton, Nat.add_sub_cancel, hvalue,
        show a.length + 1 + 1 + k = a.length + 1 + (k + 1) by omega]
      exact hcarried
    · rw [if_pos hten]
      refine ⟨⟨a ++ [d], c, k, rfl, ha, hlow, hhigh, fun _ => hten, nofun⟩, rfl, ?_⟩
      simp
      omega

/-- Rounding up adds one to the last digit. -/
theorem roundUp_spec (h : IsDigits a n) (hlength : a.length ≤ 128) {point : ℤ}
    (hpoint : a = [] → point = 0) :
    ∃ m, IsDigits (roundUp a point).1 m ∧
      (m : ℚ) * 10 ^ ((roundUp a point).2 - (roundUp a point).1.length) =
        (n + 1) * 10 ^ (point - a.length) ∧
      (roundUp a point).1.length ≤ max 1 a.length ∧ point ≤ (roundUp a point).2 ∧
      (roundUp a point).2 ≤ point + 1 ∧
      (roundUp a point).1.length - (roundUp a point).2 ≤ a.length - point := by
  rcases a.eq_nil_or_concat with rfl | ⟨b, c, rfl⟩
  · have hzero : n = 0 := h.value.symm.trans rfl
    have hp := hpoint rfl
    have hone : IsDigits [digitChar 1] 1 := isDigits_digitChar (by omega)
    refine ⟨1, hone, ?_⟩
    simp [roundUp, hzero, hp]
  · rw [List.concat_eq_append] at h hlength ⊢
    have hdigits : ∀ e ∈ b, isDigit e = true := fun e he =>
      h.digits e (List.mem_append_left _ he)
    have hrange := Json.toNat_of_isDigit (h.digits c (by simp))
    have hnext : (c + 1).toNat = c.toNat + 1 := by
      rw [UInt8.toNat_add]
      simp only [UInt8.reduceToNat]
      omega
    have hvalue : digitsValue (b ++ [c + 1]) = n + 1 := by
      rw [← h.value, digitsValue_append, digitsValue_append, digitsValue_cons, digitsValue_cons,
        digit_toNat hrange.1, digit_toNat (by omega), hnext]
      simp only [List.length_nil, List.length_cons, pow_zero]
      omega
    have hset : (b ++ [c]).set ((b ++ [c]).length - 1)
        ((b ++ [c]).getD ((b ++ [c]).length - 1) 0 + 1) = b ++ [c + 1] := by simp
    have hlast : (b ++ [c]).length - 1 = b.length := by simp
    have hcarried := @carryLoop_spec b (c + 1) hdigits (by omega) (by omega) 0
    rw [List.replicate_zero, hvalue, Nat.add_zero] at hcarried
    have hsize : (b ++ [c]).length = b.length + 1 := by simp
    unfold roundUp
    simp only
    rw [if_neg (by simp), hset, hlast, hsize]
    rw [hsize] at hlength
    generalize carryLoop (b ++ [c + 1]) b.length = carried at *
    obtain ⟨l, returned⟩ := carried
    obtain ⟨⟨d, e, j, hl, hd, hlow, hhigh, hreturned, hfirst⟩, hsum, hcount⟩ := hcarried
    simp only at hl hsum hcount hreturned hfirst ⊢
    subst hl
    by_cases hten : returned = false ∧ (d ++ e :: List.replicate j 48).getD 0 0 = 58
    · obtain ⟨rfl, hzero⟩ := hten
      obtain rfl := hfirst rfl
      obtain rfl : e = 58 := hzero
      rw [List.nil_append, List.length_cons, List.length_replicate] at hcount
      rw [List.nil_append, digitsValue_cons, (isDigits_zeros j).value,
        List.length_replicate] at hsum
      rw [if_pos ⟨rfl, rfl⟩]
      have hone : IsDigits (49 :: List.replicate j 48) (1 * 10 ^ j + 0) := by
        have happend := (isDigits_digitChar (show 1 < 10 by omega)).append (isDigits_zeros j)
        rw [List.length_replicate] at happend
        exact happend
      refine ⟨_, hone, ?_, ?_, ?_, ?_, ?_⟩
      · have hsum' : ((n : ℚ) + 1) = 10 * 10 ^ j := by
          rw [show ((58 : UInt8) - 48).toNat = 10 by rfl, Nat.add_zero] at hsum
          exact_mod_cast hsum.symm
        simp only [List.nil_append, List.set_cons_zero, List.length_cons, List.length_replicate]
        rw [hsum', ← hcount,
          show point + 1 - ((j + 1 : ℕ) : ℤ) = point - ((j + 1 : ℕ) : ℤ) + 1 by ring,
          zpow_add_one₀ (by norm_num)]
        push_cast
        ring
      · simp
        omega
      · simp only
        omega
      · simp only
        omega
      · simp only [List.nil_append, List.set_cons_zero, List.length_cons, List.length_replicate]
        omega
    · rw [if_neg hten]
      have hnine : e.toNat ≤ 57 := by
        by_contra hgt
        have hfifty : e = 58 := UInt8.toNat_inj.mp (by simp only [UInt8.reduceToNat]; omega)
        cases returned with
        | true => exact hreturned rfl hfifty
        | false =>
          refine hten ⟨rfl, ?_⟩
          rw [hfirst rfl, hfifty]
          rfl
      have hall : IsDigits (d ++ e :: List.replicate j 48) (n + 1) := by
        refine ⟨fun x hx => ?_, hsum⟩
        rcases List.mem_append.mp hx with hx | hx
        · exact hd x hx
        · rcases List.mem_cons.mp hx with rfl | hx
          · exact isDigit_of_toNat hlow hnine
          · rw [List.eq_of_mem_replicate hx]
            decide
      refine ⟨_, hall, ?_, ?_, le_rfl, ?_, ?_⟩
      · simp only
        rw [hcount]
        push_cast
        rfl
      · simp only
        omega
      · simp only
        omega
      · simp only
        omega

end Njs.Decimal

/-!
## The digits of a binary fraction

Multiplying by five and moving the point gives the decimal digits of a binary fraction one by one.
What is left after all of them decides the rounding. No product needs more than the bits of one
or two words.
-/

namespace Njs.Decimal

variable {start : List UInt8} {f n k d r i count : ℕ} {v : Diyu128}

/-- The first `k` decimal digits of the fraction `f / 2 ^ n`, and what is left. -/
structure Expands (f n k d r : ℕ) : Prop where
  le : k ≤ n
  rest : r < 2 ^ (n - k)
  sum : f * 10 ^ k = d * 2 ^ n + r * 2 ^ k

theorem Expands.zero (h : f < 2 ^ n) : Expands f n 0 0 f := ⟨Nat.zero_le n, h, by ring⟩

/-- One more digit in front. -/
theorem Expands.cons {digit g : ℕ} (hdigit : f * 5 = digit * 2 ^ n + g) (h : Expands g n k d r) :
    Expands f (n + 1) (k + 1) (digit * 10 ^ k + d) r where
  le := Nat.succ_le_succ h.le
  rest := by
    rw [Nat.add_sub_add_right]
    exact h.rest
  sum := by
    have hten : f * 10 ^ (k + 1) = 2 * (f * 5) * 10 ^ k := by ring
    have hsum := h.sum
    calc f * 10 ^ (k + 1) = 2 * (digit * 2 ^ n + g) * 10 ^ k := by rw [hten, hdigit]
      _ = 2 * (digit * 2 ^ n * 10 ^ k + g * 10 ^ k) := by ring
      _ = 2 * (digit * 2 ^ n * 10 ^ k + (d * 2 ^ n + r * 2 ^ k)) := by rw [hsum]
      _ = (digit * 10 ^ k + d) * 2 ^ (n + 1) + r * 2 ^ (k + 1) := by ring

theorem digit_lt_ten (h : f < 2 ^ (n + 1)) : f * 5 / 2 ^ n < 10 := by
  rw [Nat.div_lt_iff_lt_mul (Nat.two_pow_pos n)]
  rw [pow_succ] at h
  omega

/-- The product with five has room in some bits. -/
structure Room (bits f n : ℕ) : Prop where
  le : n ≤ bits
  lt : f < 2 ^ n
  first : bits < n + 3 → f < 2 ^ (bits - 11) * 5 ^ (bits - n)

theorem Room.product {bits : ℕ} (hbits : 11 ≤ bits) (h : Room bits f n) : f * 5 < 2 ^ bits := by
  by_cases hroom : bits < n + 3
  · have hlt := h.first hroom
    have hpow := Nat.pow_le_pow_right (show 0 < 5 by omega) (show bits - n ≤ 2 by omega)
    have hmul := Nat.mul_le_mul_left (2 ^ (bits - 11)) hpow
    have hsplit : 2 ^ bits = 2 ^ (bits - 11) * 2 ^ 11 := by
      rw [← pow_add, Nat.sub_add_cancel hbits]
    omega
  · have hlt := h.lt
    have hpow := Nat.pow_le_pow_right (show 0 < 2 by omega) (show n + 3 ≤ bits by omega)
    rw [pow_add] at hpow
    omega

theorem Room.next {bits : ℕ} (h : Room bits f (n + 1)) : Room bits (f * 5 % 2 ^ n) n where
  le := Nat.le_of_succ_le h.le
  lt := Nat.mod_lt _ (Nat.two_pow_pos n)
  first hroom := by
    have hlt := h.first (by omega)
    have hle := Nat.mod_le (f * 5) (2 ^ n)
    have hpow : 5 ^ (bits - n) = 5 ^ (bits - (n + 1)) * 5 := by
      have hn := h.le
      rw [← pow_succ]
      congr 1
      omega
    calc f * 5 % 2 ^ n ≤ f * 5 := hle
      _ < 2 ^ (bits - 11) * 5 ^ (bits - (n + 1)) * 5 := Nat.mul_lt_mul_of_pos_right hlt (by omega)
      _ = 2 ^ (bits - 11) * 5 ^ (bits - n) := by rw [hpow, Nat.mul_assoc]

/-! ## One word -/

theorem fractionals64_spec (hroom : Room 64 f n) (hstart : start.length + min count n ≤ 128) :
    ∃ k d r digits, fractionals64 f n start count = .ok (r, n - k, start ++ digits) ∧
      IsDigits digits d ∧ digits.length = k ∧ k ≤ count ∧ Expands f n k d r ∧
      (k = count ∨ r = 0) := by
  induction count generalizing f n start with
  | zero =>
    refine ⟨0, 0, f, [], ?_, .nil, rfl, le_rfl, .zero hroom.lt, .inl rfl⟩
    rw [fractionals64, Nat.sub_zero, List.append_nil]
  | succ count ih =>
    rw [fractionals64]
    split_ifs with hzero hn
    · refine ⟨0, 0, f, [], ?_, .nil, rfl, Nat.zero_le _, .zero hroom.lt, .inr hzero⟩
      rw [Nat.sub_zero, List.append_nil]
    · have hf := hroom.lt
      rw [hn] at hf
      omega
    · obtain ⟨n, rfl⟩ := Nat.exists_eq_succ_of_ne_zero hn
      rw [Nat.succ_eq_add_one, Nat.add_sub_cancel] at *
      have hparts := Nat.div_add_mod' (f * 5) (2 ^ n)
      have hrest : f * 5 - f * 5 / 2 ^ n * 2 ^ n = f * 5 % 2 ^ n := by omega
      obtain ⟨k, d, r, digits, hrun, hdigits, hlength, hk, hexpands, hend⟩ :=
        @ih (start ++ [digitChar (f * 5 / 2 ^ n)]) _ _ hroom.next (by simp; omega)
      have hdigit := isDigits_digitChar (digit_lt_ten hroom.lt)
      have hall := hdigit.append hdigits
      rw [hlength] at hall
      refine ⟨k + 1, _, r, _, ?_, hall, by simp [hlength], by omega,
        hexpands.cons hparts.symm, by omega⟩
      rw [fits64, if_pos (hroom.product (by omega)), ok_bind]
      simp only [hrest]
      rw [put_ok (by omega), ok_bind, hrun, Nat.add_sub_add_right, List.append_assoc]

/-! ## Two words -/

/-- Both words have 64 bits. -/
def Diyu128.Fits (v : Diyu128) : Prop := v.high < 2 ^ 64 ∧ v.low < 2 ^ 64

theorem Diyu128.mul_spec (hv : v.Fits) (h : v.value * 5 < 2 ^ 128) :
    ∃ w, v.mul 5 = .ok w ∧ w.Fits ∧ w.value = v.value * 5 := by
  obtain ⟨hhigh, hlow⟩ := hv
  unfold value at h
  have hlow₀ : v.low % 2 ^ 32 * 5 < 2 ^ 64 := by omega
  have hlow₁ : v.low % 2 ^ 32 * 5 / 2 ^ 32 + v.low / 2 ^ 32 * 5 < 2 ^ 64 := by omega
  have hhigh₀ : (v.low % 2 ^ 32 * 5 / 2 ^ 32 + v.low / 2 ^ 32 * 5) / 2 ^ 32 +
      v.high % 2 ^ 32 * 5 < 2 ^ 64 := by omega
  have hhigh₁ : ((v.low % 2 ^ 32 * 5 / 2 ^ 32 + v.low / 2 ^ 32 * 5) / 2 ^ 32 +
      v.high % 2 ^ 32 * 5) / 2 ^ 32 + v.high / 2 ^ 32 * 5 < 2 ^ 64 := by omega
  have hlast : (((v.low % 2 ^ 32 * 5 / 2 ^ 32 + v.low / 2 ^ 32 * 5) / 2 ^ 32 +
      v.high % 2 ^ 32 * 5) / 2 ^ 32 + v.high / 2 ^ 32 * 5) * 2 ^ 32 +
      ((v.low % 2 ^ 32 * 5 / 2 ^ 32 + v.low / 2 ^ 32 * 5) / 2 ^ 32 +
        v.high % 2 ^ 32 * 5) % 2 ^ 32 < 2 ^ 64 := by omega
  have hrun : ∃ w, v.mul 5 = .ok w ∧ w.high = ((((v.low % 2 ^ 32 * 5 / 2 ^ 32 +
      v.low / 2 ^ 32 * 5) / 2 ^ 32 + v.high % 2 ^ 32 * 5) / 2 ^ 32 + v.high / 2 ^ 32 * 5) * 2 ^ 32 +
        ((v.low % 2 ^ 32 * 5 / 2 ^ 32 + v.low / 2 ^ 32 * 5) / 2 ^ 32 + v.high % 2 ^ 32 * 5) %
          2 ^ 32) ∧
      w.low = (v.low % 2 ^ 32 * 5 / 2 ^ 32 + v.low / 2 ^ 32 * 5) * 2 ^ 32 % 2 ^ 64 +
        v.low % 2 ^ 32 * 5 % 2 ^ 32 := by
    unfold mul fits64
    rw [if_pos hlow₀, ok_bind, if_pos hlow₁, ok_bind, if_pos hhigh₀, ok_bind, if_pos hhigh₁,
      ok_bind, if_pos hlast, ok_bind]
    exact ⟨_, rfl, rfl, rfl⟩
  obtain ⟨w, hw, hwhigh, hwlow⟩ := hrun
  refine ⟨w, hw, ⟨by omega, by omega⟩, ?_⟩
  unfold value
  omega

/-- The digit is the whole part, and the rest is kept. -/
theorem Diyu128.divModPow2_spec (hv : v.Fits) (hn : n < 128) (h : v.value < 10 * 2 ^ n) :
    ∃ w, v.divModPow2 n = .ok (v.value / 2 ^ n, w) ∧ w.Fits ∧ w.value = v.value % 2 ^ n := by
  obtain ⟨hhigh, hlow⟩ := hv
  unfold value at h
  unfold divModPow2
  split_ifs with hword
  · obtain ⟨m, rfl⟩ := Nat.exists_eq_add_of_le hword
    have hpow : 2 ^ (64 + m) = 2 ^ 64 * 2 ^ m := pow_add 2 64 m
    have hquotient : v.value / 2 ^ (64 + m) = v.high / 2 ^ m := by
      rw [value, hpow, ← Nat.div_div_eq_div_mul]
      congr 1
      omega
    have hparts := Nat.div_add_mod' v.high (2 ^ m)
    have hten : v.high / 2 ^ m < 10 := by
      rw [← hquotient, Nat.div_lt_iff_lt_mul (Nat.two_pow_pos _)]
      exact h
    rw [Nat.add_sub_cancel_left, fitsInt, if_pos (by omega), ok_bind, hquotient]
    refine ⟨_, rfl, ⟨?_, hlow⟩, ?_⟩
    · simp only
      omega
    · rw [← hquotient, Nat.mod_eq_sub_div_mul, hquotient, hpow]
      unfold value
      simp only [Nat.sub_mul]
      have hassoc : v.high / 2 ^ m * (2 ^ 64 * 2 ^ m) = v.high / 2 ^ m * 2 ^ m * 2 ^ 64 := by ring
      omega
  · obtain ⟨m, hm⟩ := Nat.exists_eq_add_of_lt (not_le.mp hword)
    have hsub : 64 - n = m + 1 := by omega
    have hpow : 2 ^ 64 = 2 ^ (m + 1) * 2 ^ n := by
      rw [← pow_add]
      congr 1
      omega
    have hvalue : v.value = v.high * 2 ^ (m + 1) * 2 ^ n + v.low := by
      rw [value, hpow, Nat.mul_assoc]
    have hquotient : v.value / 2 ^ n = v.high * 2 ^ (m + 1) + v.low / 2 ^ n := by
      rw [hvalue, Nat.add_comm, Nat.add_mul_div_right _ _ (Nat.two_pow_pos n), Nat.add_comm]
    have hrest : v.value % 2 ^ n = v.low % 2 ^ n := by
      rw [hvalue, Nat.add_comm, Nat.add_mul_mod_self_right]
    have hten : v.value / 2 ^ n < 10 := by
      rw [Nat.div_lt_iff_lt_mul (Nat.two_pow_pos n)]
      exact h
    have hmod : (v.low / 2 ^ n + v.high * 2 ^ (m + 1) % 2 ^ 64) % 2 ^ 64 = v.value / 2 ^ n := by
      rw [hquotient] at hten ⊢
      rw [Nat.add_mod_mod, Nat.add_comm]
      apply Nat.mod_eq_of_lt
      exact hten.trans (by norm_num)
    have hparts := Nat.div_add_mod' v.low (2 ^ n)
    simp only [hsub, hmod]
    rw [fitsInt, if_pos (by omega), ok_bind]
    refine ⟨_, rfl, ⟨Nat.two_pow_pos 64, ?_⟩, ?_⟩
    · simp only
      omega
    · rw [hrest, value, Nat.zero_mul, Nat.zero_add, Nat.mod_eq_sub_div_mul]

/-- A word moved behind the first binary point. -/
theorem Diyu128.shift_spec {s : ℕ} (hf : f < 2 ^ 64) (hpos : 0 < s) (hs : s ≤ 64) :
    ((⟨f, 0⟩ : Diyu128).shift s).Fits ∧
      ((⟨f, 0⟩ : Diyu128).shift s).value = f * 2 ^ (64 - s) := by
  unfold shift
  rw [if_pos hpos]
  split_ifs with hlast
  · refine ⟨⟨Nat.two_pow_pos 64, hf⟩, ?_⟩
    rw [hlast, value]
    simp only
    omega
  · have hpow : 2 ^ 64 = 2 ^ s * 2 ^ (64 - s) := by
      rw [← pow_add, Nat.add_sub_cancel' hs]
    have hhigh : f * 2 ^ (64 - s) / 2 ^ 64 = f / 2 ^ s := by
      rw [hpow, Nat.mul_div_mul_right _ _ (Nat.two_pow_pos _)]
    have hparts := Nat.div_add_mod' (f * 2 ^ (64 - s)) (2 ^ 64)
    have hle := Nat.div_le_self f (2 ^ s)
    simp only [Nat.zero_div, Nat.zero_add]
    refine ⟨⟨?_, Nat.mod_lt _ (Nat.two_pow_pos 64)⟩, ?_⟩
    · simp only
      omega
    · rw [value, ← hhigh]
      exact hparts

theorem Diyu128.isZero_iff : v.isZero = true ↔ v.value = 0 := by
  rw [isZero, decide_eq_true_eq, value]
  omega

theorem Diyu128.bitAt_eq (v : Diyu128) (n : ℕ) (hlow : v.low < 2 ^ 64) :
    v.bitAt n = v.value / 2 ^ n % 2 := by
  unfold bitAt value
  split_ifs with hword
  · obtain ⟨m, rfl⟩ := Nat.exists_eq_add_of_le hword
    rw [Nat.add_sub_cancel_left, pow_add, ← Nat.div_div_eq_div_mul]
    congr 2
    omega
  · obtain ⟨m, hm⟩ := Nat.exists_eq_add_of_lt (not_le.mp hword)
    have hpow : 2 ^ 64 = 2 * 2 ^ m * 2 ^ n := by
      rw [← pow_succ', ← pow_add]
      congr 1
      omega
    rw [hpow, show v.high * (2 * 2 ^ m * 2 ^ n) = v.high * 2 ^ m * 2 * 2 ^ n by ring, Nat.add_comm,
      Nat.add_mul_div_right _ _ (Nat.two_pow_pos n)]
    omega

theorem fractionals128_spec (hv : v.Fits) (hroom : Room 128 v.value n)
    (hstart : start.length + min count n ≤ 128) :
    ∃ k d w digits, fractionals128 v n start count = .ok (w, n - k, start ++ digits) ∧
      w.Fits ∧ IsDigits digits d ∧ digits.length = k ∧ k ≤ count ∧
      Expands v.value n k d w.value ∧ (k = count ∨ w.value = 0) := by
  induction count generalizing v n start with
  | zero =>
    refine ⟨0, 0, v, [], ?_, hv, .nil, rfl, le_rfl, .zero hroom.lt, .inl rfl⟩
    rw [fractionals128, Nat.sub_zero, List.append_nil]
  | succ count ih =>
    rw [fractionals128]
    split_ifs with hzero hn
    · refine ⟨0, 0, v, [], ?_, hv, .nil, rfl, Nat.zero_le _, .zero hroom.lt,
        .inr (Diyu128.isZero_iff.mp hzero)⟩
      rw [Nat.sub_zero, List.append_nil]
    · have hlt := hroom.lt
      rw [Diyu128.isZero_iff] at hzero
      rw [hn] at hlt
      omega
    · obtain ⟨n, rfl⟩ := Nat.exists_eq_succ_of_ne_zero hn
      rw [Nat.succ_eq_add_one, Nat.add_sub_cancel] at *
      have hn := hroom.le
      have hparts := Nat.div_add_mod' (v.value * 5) (2 ^ n)
      have hten := digit_lt_ten hroom.lt
      obtain ⟨w, hmul, hw, hproduct⟩ := Diyu128.mul_spec hv (hroom.product (by omega))
      have hlt : w.value < 10 * 2 ^ n := by
        rw [hproduct]
        exact (Nat.div_lt_iff_lt_mul (Nat.two_pow_pos n)).mp hten
      obtain ⟨u, hdivide, hu, hrest⟩ := Diyu128.divModPow2_spec hw (by omega) hlt
      rw [hproduct] at hdivide hrest
      have hnext := hroom.next
      rw [← hrest] at hnext hparts
      obtain ⟨k, d, r, digits, hrun, hr, hdigits, hlength, hk, hexpands, hend⟩ :=
        @ih (start ++ [digitChar (v.value * 5 / 2 ^ n)]) _ _ hu hnext (by simp; omega)
      have hall := (isDigits_digitChar hten).append hdigits
      rw [hlength] at hall
      refine ⟨k + 1, _, r, _, ?_, hr, hall, by simp [hlength], by omega,
        hexpands.cons hparts.symm, by omega⟩
      rw [hmul, ok_bind, hdivide, ok_bind]
      simp only
      rw [put_ok (by omega), ok_bind, hrun, Nat.add_sub_add_right, List.append_assoc]

/-! ## Rounding -/

/-- Digits and a point for the nearest number with some digits behind the point, the larger one on
a tie. The digits fit in the buffer. -/
structure Rounded (x : ℚ) (frac : ℕ) (out : List UInt8 × ℤ) : Prop where
  digits : ∀ c ∈ out.1, isDigit c = true
  value : ∃ j : ℕ, (out.1.length : ℤ) + j = out.2 + frac ∧
    digitsValue out.1 * 10 ^ j = ⌊x * 10 ^ frac + 1 / 2⌋₊
  length : out.1.length < 128
  point : out.2 ≤ 27

/-- What is left over decides the rounding. -/
theorem floor_half (m : ℕ) (hr : r < 2 ^ (n + 1)) :
    ⌊(m : ℚ) + r / 2 ^ (n + 1) + 1 / 2⌋₊ = if r / 2 ^ n % 2 = 1 then m + 1 else m := by
  have hpos : (0 : ℚ) < 2 ^ (n + 1) := by positivity
  have hsplit : (2 : ℚ) ^ (n + 1) = 2 ^ n * 2 := pow_succ 2 n
  have hbit : r / 2 ^ n < 2 := by
    rw [Nat.div_lt_iff_lt_mul (Nat.two_pow_pos n), ← pow_succ']
    exact hr
  have hlt : (r : ℚ) < 2 ^ (n + 1) := by exact_mod_cast hr
  rw [Nat.floor_eq_iff (by positivity)]
  split_ifs with h
  · have hle : 2 ^ n ≤ r := by
      by_contra hlt
      rw [Nat.div_eq_of_lt (not_le.mp hlt)] at h
      omega
    have hle' : (2 : ℚ) ^ n ≤ r := by exact_mod_cast hle
    have hhalf : (1 : ℚ) / 2 ≤ r / 2 ^ (n + 1) := by
      rw [div_le_div_iff₀ (by norm_num) hpos]
      linarith
    have hone : (r : ℚ) / 2 ^ (n + 1) < 1 := (div_lt_one hpos).mpr hlt
    push_cast
    constructor
    · linarith
    · linarith
  · have hlt : r < 2 ^ n := by
      rw [← Nat.div_eq_zero_iff_lt (Nat.two_pow_pos n)]
      generalize r / 2 ^ n = bit at *
      omega
    have hlt' : (r : ℚ) < 2 ^ n := by exact_mod_cast hlt
    have hhalf : (r : ℚ) / 2 ^ (n + 1) < 1 / 2 := by
      rw [div_lt_div_iff₀ hpos (by norm_num)]
      linarith
    have hzero : (0 : ℚ) ≤ r / 2 ^ (n + 1) := by positivity
    constructor
    · linarith
    · linarith

theorem floor_half_nat (m : ℕ) : ⌊(m : ℚ) + 1 / 2⌋₊ = m := by
  rw [Nat.floor_eq_iff (by positivity)]
  constructor
  · linarith
  · linarith

/-- The first digits in front of the point and behind it. -/
theorem Expands.scaled (h : Expands f n k d r) (whole : ℕ) :
    ((whole : ℚ) + f / 2 ^ n) * 10 ^ k = (whole * 10 ^ k + d : ℕ) + r / 2 ^ (n - k) := by
  have hsum : (f : ℚ) * 10 ^ k = d * 2 ^ n + r * 2 ^ k := by exact_mod_cast h.sum
  have hsplit : (2 : ℚ) ^ n = 2 ^ (n - k) * 2 ^ k := by
    rw [← pow_add, Nat.sub_add_cancel h.le]
  have hfraction : (f : ℚ) / 2 ^ n * 10 ^ k = d + r / 2 ^ (n - k) := by
    rw [div_mul_eq_mul_div, hsum, add_div, mul_div_cancel_right₀ _ (by positivity), hsplit,
      mul_div_mul_right _ _ (by positivity)]
  rw [add_mul, hfraction]
  push_cast
  ring

theorem roundUp_rounded {x : ℚ} {frac : ℕ} {point : ℤ} (h : IsDigits start n)
    (hlength : (start.length : ℤ) = point + frac) (hempty : start = [] → point = 0)
    (hfits : start.length < 128) (hpoint : point ≤ 26)
    (hvalue : ⌊x * 10 ^ frac + 1 / 2⌋₊ = n + 1) : Rounded x frac (roundUp start point) := by
  obtain ⟨m, hdigits, hsum, hmax, -, hnext, hscale⟩ := roundUp_spec h hfits.le hempty
  obtain ⟨j, hj⟩ : ∃ j : ℕ, ((roundUp start point).1.length : ℤ) + j =
      (roundUp start point).2 + frac :=
    ⟨((roundUp start point).2 + frac - (roundUp start point).1.length).toNat, by omega⟩
  refine ⟨hdigits.digits, ⟨j, hj, ?_⟩, by omega, by omega⟩
  have hleft : (roundUp start point).2 - (roundUp start point).1.length = (j : ℤ) - frac := by
    omega
  have hright : point - start.length = 0 - (frac : ℤ) := by omega
  have hscaled : (m : ℚ) * 10 ^ j = n + 1 := by
    rw [hleft, hright, zpow_sub₀ (by norm_num), zpow_sub₀ (by norm_num), zpow_natCast,
      zpow_natCast, zpow_zero] at hsum
    field_simp at hsum
    exact hsum
  rw [hdigits.value, hvalue]
  exact_mod_cast hscaled

/-- Rounding by what the loop leaves. -/
theorem Expands.rounded {whole frac : ℕ} {digits : List UInt8} (h : Expands f n k d r)
    (hstart : IsDigits start whole) (hdigits : IsDigits digits d) (hlength : digits.length = k)
    (hk : k ≤ frac) (hend : k = frac ∨ r = 0) (hpoint : start.length ≤ 26)
    (hfits : start.length + k < 128) :
    Rounded (whole + f / 2 ^ n) frac (if 0 < n - k ∧ r / 2 ^ (n - k - 1) % 2 = 1 then
      roundUp (start ++ digits) start.length else (start ++ digits, (start.length : ℤ))) := by
  have hall := hstart.append hdigits
  rw [hlength] at hall
  have hscaled := h.scaled whole
  have hrest := h.rest
  split_ifs with hup
  · obtain ⟨hpos, hbit⟩ := hup
    obtain ⟨m, hm⟩ := Nat.exists_eq_succ_of_ne_zero hpos.ne'
    rw [Nat.succ_eq_add_one] at hm
    rw [hm, Nat.add_sub_cancel] at hbit
    have hfrac : k = frac := hend.resolve_right fun hzero => by simp [hzero] at hbit
    rw [hm] at hrest hscaled
    rw [← hfrac]
    refine roundUp_rounded hall (by simp [hlength]) (by simp_all) (by simp [hlength, hfits])
      (by omega) ?_
    rw [hscaled, floor_half _ hrest, if_pos hbit]
  · refine ⟨hall.digits, ⟨frac - k, ?_, ?_⟩, by simp [hlength, hfits], by simp; omega⟩
    · simp only [List.length_append, hlength]
      omega
    · rw [hall.value]
      rcases hend with rfl | rfl
      · rw [Nat.sub_self, pow_zero, Nat.mul_one, hscaled]
        rcases Nat.eq_zero_or_pos (n - k) with hzero | hpos
        · rw [hzero, pow_zero, Nat.lt_one_iff] at hrest
          rw [hrest, Nat.cast_zero, zero_div, add_zero, floor_half_nat]
        · obtain ⟨m, hm⟩ := Nat.exists_eq_succ_of_ne_zero hpos.ne'
          rw [Nat.succ_eq_add_one] at hm
          rw [hm] at hrest hup ⊢
          rw [Nat.add_sub_cancel] at hup
          rw [floor_half _ hrest, if_neg fun hbit => hup ⟨Nat.succ_pos m, hbit⟩]
      · have hten : (10 : ℚ) ^ frac = 10 ^ k * 10 ^ (frac - k) := by
          rw [← pow_add, Nat.add_sub_cancel' hk]
        rw [hten, ← mul_assoc, hscaled, Nat.cast_zero, zero_div, add_zero]
        have hcast : ((whole * 10 ^ k + d : ℕ) : ℚ) * 10 ^ (frac - k) =
            ((whole * 10 ^ k + d) * 10 ^ (frac - k) : ℕ) := by
          push_cast
          rfl
        rw [hcast, floor_half_nat]

/-- `njs_fill_fractionals` rounds. -/
theorem fillFractionals_spec {whole frac e : ℕ} (hstart : IsDigits start whole)
    (hpoint : start.length ≤ 26) (hf : f < 2 ^ 53) (hlt : f < 2 ^ e) (hpos : 0 < e)
    (he : e ≤ 128) (hfrac : frac ≤ 100) :
    ∃ out, fillFractionals f e frac start start.length = .ok out ∧
      Rounded (whole + f / 2 ^ e) frac out := by
  unfold fillFractionals
  split_ifs with hword
  · have hroom : Room 64 f e := by
      refine ⟨hword, hlt, fun _ => hf.trans_le ?_⟩
      exact Nat.le_mul_of_pos_right _ (Nat.pow_pos (by omega))
    obtain ⟨k, d, r, digits, hrun, hdigits, hlength, hk, hexpands, hend⟩ :=
      @fractionals64_spec start f e frac hroom (by omega)
    have hrounded := hexpands.rounded hstart hdigits hlength hk hend hpoint (by omega)
    rw [hrun, ok_bind]
    simp only
    rw [← apply_ite Except.ok]
    exact ⟨_, rfl, hrounded⟩
  · have hs : 0 < e - 64 ∧ e - 64 ≤ 64 := by omega
    obtain ⟨hfits, hvalue⟩ := @Diyu128.shift_spec f (e - 64) (by omega) hs.1 hs.2
    generalize (⟨f, 0⟩ : Diyu128).shift (e - 64) = v at *
    rw [show 64 - (e - 64) = 128 - e by omega] at hvalue
    have hsplit : 2 ^ 128 = 2 ^ e * 2 ^ (128 - e) := by
      rw [← pow_add, Nat.add_sub_cancel' he]
    have hroom : Room 128 v.value 128 := by
      refine ⟨le_rfl, ?_, fun _ => ?_⟩
      · rw [hvalue, hsplit]
        exact Nat.mul_lt_mul_of_pos_right hlt (Nat.two_pow_pos _)
      · have hpow := Nat.pow_le_pow_right (show 0 < 2 by omega) (show 128 - e ≤ 63 by omega)
        have hmul := Nat.mul_lt_mul_of_lt_of_le hf hpow (Nat.two_pow_pos _)
        rw [hvalue]
        omega
    obtain ⟨k, d, w, digits, hrun, hw, hdigits, hlength, hk, hexpands, hend⟩ :=
      @fractionals128_spec start 128 frac v hfits hroom (by omega)
    have hrounded := hexpands.rounded hstart hdigits hlength hk hend hpoint (by omega)
    have hquotient : (v.value : ℚ) / 2 ^ 128 = f / 2 ^ e := by
      have hsplit' : (2 : ℚ) ^ 128 = 2 ^ e * 2 ^ (128 - e) := by exact_mod_cast hsplit
      rw [hvalue, hsplit']
      push_cast
      rw [mul_div_mul_right _ _ (by positivity)]
    rw [hquotient] at hrounded
    simp only [hrun, ok_bind]
    rw [if_neg (by omega), w.bitAt_eq _ hw.2, ← apply_ite Except.ok]
    refine ⟨_, rfl, ?_⟩
    simp only [show 0 < 128 - k by omega, true_and] at hrounded
    exact hrounded

end Njs.Decimal
