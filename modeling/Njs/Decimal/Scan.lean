import Njs.Json.Numerals
import Njs.Result

/-!
# The scan of `njs_strtod` with its counters

The exponent and the number of the digits that are dropped are values of type `int` in
`njs_strtod`. Where none of their sums overflows, the scan is `scanLiteral`.
-/

namespace Njs.Decimal

open Json

variable {p q digits data : List UInt8} {n : Numeral}

/-- A sum of type `int`, whose overflow C leaves undefined. -/
def addInt (a b : ℤ) : Result ℤ :=
  if -2 ^ 31 ≤ a + b ∧ a + b < 2 ^ 31 then .ok (a + b) else .error .fault

/-- The loop over the digits before the point. The buffer has room for 128 digits, the other
ones are counted by `insignf`. -/
def wholeLoop (data : List UInt8) (insignf : ℤ) : List UInt8 → Result (List UInt8 × ℤ × List UInt8)
  | [] => .ok (data, insignf, [])
  | c :: p =>
    if isDigit c then
      if data.length < 128 then wholeLoop (data ++ [c]) insignf p
      else do
        let insignf ← addInt insignf 1
        wholeLoop data insignf p
    else .ok (data, insignf, c :: p)

/-- The loop over the digits behind the point. A digit that is dropped leaves the exponent as
it is. -/
def fractionLoop (data : List UInt8) (exponent : ℤ) :
    List UInt8 → Result (List UInt8 × ℤ × List UInt8)
  | [] => .ok (data, exponent, [])
  | c :: p =>
    if isDigit c then
      if data.length < 128 then do
        let exponent ← addInt exponent (-1)
        fractionLoop (data ++ [c]) exponent p
      else fractionLoop data exponent p
    else .ok (data, exponent, c :: p)

/-- The point and the digits behind it, if there is a point. -/
def pointLoop (data : List UInt8) : List UInt8 → Result (List UInt8 × ℤ × List UInt8)
  | 46 :: p => fractionLoop data 0 p
  | p => .ok (data, 0, p)

/-- `njs_strtod` up to its call of `njs_strtod_internal`. There is no literal where it returns
a NaN of its own. -/
def strtod (text : List UInt8) : Result (Option Literal) := do
  let whole ← wholeLoop [] 0 text
  let point ← pointLoop whole.1 whole.2.2
  if point.1.isEmpty then .ok none
  else do
    let exponent ← addInt point.2.1 (scanExponent point.2.2).1
    let exponent ← addInt exponent whole.2.1
    .ok (some { digits := point.1, exponent := exponent, rest := (scanExponent point.2.2).2 })

/-- The digits of a number without its point and its exponent. -/
def digitsOf (n : Numeral) : List UInt8 := n.whole ++ n.fraction.getD []

/-- How many digits behind the point are kept. -/
def keptFraction (n : Numeral) : ℕ := min (128 - n.whole.length) (n.fraction.getD []).length

/-- No sum of `njs_strtod` overflows: the digits that are dropped before the point are less
than `2 ^ 31`, and so is each sum with an exponent the loop goes through. The exponent stops
growing before it reaches `2147483630`. -/
def Fits (n : Numeral) : Prop :=
  n.whole.length - 128 < 2 ^ 31 ∧
    ∀ e sign digits, n.exponent = some (e, sign, digits) →
      ∀ a, a <+: digits → digitsValue a < 2147483630 →
        if sign = some 45 then keptFraction n + digitsValue a ≤ 2 ^ 31
        else n.whole.length - 128 + digitsValue a < 2 ^ 31

/-- The longest number that a text begins with is `n`, and `q` is behind it. -/
structure IsLongest (n : Numeral) (q : List UInt8) : Prop where
  scanned : n.Scanned
  longest : ∀ (m : Numeral) (p : List UInt8), m.Scanned → n.text ++ q = m.text ++ p →
    m.text.length ≤ n.text.length

/-! ## The loops -/

theorem addInt_ok {a b : ℤ} (hlower : -2 ^ 31 ≤ a + b) (hupper : a + b < 2 ^ 31) :
    addInt a b = .ok (a + b) := if_pos ⟨hlower, hupper⟩

theorem addInt_fault {a b : ℤ} (h : 2 ^ 31 ≤ a + b ∨ a + b < -2 ^ 31) :
    addInt a b = .error .fault := if_neg (by omega)

/-- The loop keeps the digits that have room and counts the other ones. -/
theorem wholeLoop_digits {insignf : ℤ} (hdata : data.length ≤ 128) (hzero : 0 ≤ insignf)
    (hmax : insignf < 2 ^ 31) (hdigits : ∀ c ∈ digits, isDigit c = true)
    (hq : ∀ c ∈ q.head?, isDigit c = false) :
    wholeLoop data insignf (digits ++ q) =
      if insignf + (digits.length - (128 - data.length) : ℕ) < 2 ^ 31 then
        .ok (data ++ digits.take (128 - data.length),
          insignf + (digits.length - (128 - data.length) : ℕ), q)
      else .error .fault := by
  induction digits generalizing data insignf with
  | nil =>
    rw [if_pos (by simpa using hmax)]
    cases q with
    | nil => simp [wholeLoop]
    | cons c q => simp [wholeLoop, hq c rfl]
  | cons c digits ih =>
    have hc := hdigits c List.mem_cons_self
    have hrest : ∀ d ∈ digits, isDigit d = true := fun d hd =>
      hdigits d (List.mem_cons_of_mem _ hd)
    by_cases hroom : data.length < 128
    · have hstep := @ih (data ++ [c]) insignf (by simp; omega) hzero hmax hrest
      have hcount : digits.length - (128 - (data.length + 1)) =
          (digits.length + 1) - (128 - data.length) := by omega
      have htake : (c :: digits).take (128 - data.length) =
          c :: digits.take (128 - (data.length + 1)) := by
        rw [show 128 - data.length = 128 - (data.length + 1) + 1 by omega, List.take_succ_cons]
      simp only [List.length_append, List.length_singleton, hcount] at hstep
      simp only [List.cons_append, wholeLoop, hc, if_true, if_pos hroom, hstep, List.length_cons,
        htake, List.append_assoc, List.nil_append]
    · have hfull : 128 - data.length = 0 := by omega
      simp only [List.cons_append, wholeLoop, hc, if_true, if_neg hroom, hfull, List.take_zero,
        List.append_nil, Nat.sub_zero, List.length_cons]
      by_cases hnext : insignf + 1 < 2 ^ 31
      · rw [addInt_ok (by omega) hnext]
        have hstep := @ih data (insignf + 1) hdata (by omega) hnext hrest
        simp only [hfull, List.take_zero, List.append_nil, Nat.sub_zero] at hstep
        have hcount : insignf + 1 + (digits.length : ℤ) = insignf + (digits.length + 1 : ℕ) := by
          push_cast
          ring
        rw [hcount] at hstep
        exact hstep
      · rw [addInt_fault (by omega), if_neg (by omega)]
        rfl

/-- The loop keeps the digits that have room and adjusts the exponent for them. -/
theorem fractionLoop_digits {exponent : ℤ} (hdata : data.length ≤ 128)
    (hzero : exponent ≤ 0) (hmin : -2 ^ 31 + 128 ≤ exponent + data.length)
    (hdigits : ∀ c ∈ digits, isDigit c = true) (hq : ∀ c ∈ q.head?, isDigit c = false) :
    fractionLoop data exponent (digits ++ q) =
      .ok (data ++ digits.take (128 - data.length),
        exponent - (min (128 - data.length) digits.length : ℕ), q) := by
  induction digits generalizing data exponent with
  | nil =>
    cases q with
    | nil => simp [fractionLoop]
    | cons c q => simp [fractionLoop, hq c rfl]
  | cons c digits ih =>
    have hc := hdigits c List.mem_cons_self
    have hrest : ∀ d ∈ digits, isDigit d = true := fun d hd =>
      hdigits d (List.mem_cons_of_mem _ hd)
    by_cases hroom : data.length < 128
    · have hstep := @ih (data ++ [c]) (exponent + -1) (by simp; omega) (by omega)
        (by simp; omega) hrest
      have hcount : (min (128 - data.length) (digits.length + 1) : ℕ) =
          min (128 - (data.length + 1)) digits.length + 1 := by omega
      have htake : (c :: digits).take (128 - data.length) =
          c :: digits.take (128 - (data.length + 1)) := by
        rw [show 128 - data.length = 128 - (data.length + 1) + 1 by omega, List.take_succ_cons]
      have hsum : exponent + -1 - (min (128 - (data.length + 1)) digits.length : ℕ) =
          exponent - (min (128 - (data.length + 1)) digits.length + 1 : ℕ) := by
        push_cast
        ring
      simp only [List.length_append, List.length_singleton, hsum] at hstep
      simp only [List.cons_append, fractionLoop, hc, if_true, if_pos hroom, List.length_cons, htake,
        hcount]
      rw [addInt_ok (by omega) (by omega)]
      refine hstep.trans ?_
      simp only [List.append_assoc, List.cons_append, List.nil_append]
    · have hfull : 128 - data.length = 0 := by omega
      have hstep := @ih data exponent hdata hzero hmin hrest
      simp only [List.cons_append, fractionLoop, hc, if_true, if_neg hroom]
      simpa only [hfull, List.take_zero, Nat.zero_min] using hstep

theorem wholeLoop_span : wholeLoop [] 0 p =
    if (p.span isDigit).1.length - 128 < 2 ^ 31 then
      .ok ((p.span isDigit).1.take 128, ((p.span isDigit).1.length - 128 : ℕ), (p.span isDigit).2)
    else .error .fault := by
  obtain ⟨digits, q, rfl, hdigits, hq, hspan⟩ := span_cases p
  rw [hspan, wholeLoop_digits (by simp) le_rfl (by norm_num) hdigits hq]
  simp only [List.length_nil, Nat.sub_zero, List.nil_append, zero_add]
  by_cases hfits : digits.length - 128 < 2 ^ 31
  · rw [if_pos hfits, if_pos (by exact_mod_cast hfits)]
  · rw [if_neg hfits, if_neg (by exact_mod_cast hfits)]

theorem pointLoop_scan (hdata : data.length ≤ 128) : pointLoop data p =
    .ok (data ++ (scanFraction p).1.take (128 - data.length),
      -(min (128 - data.length) (scanFraction p).1.length : ℕ), (scanFraction p).2) := by
  unfold pointLoop scanFraction
  split
  · rename_i p
    obtain ⟨digits, q, rfl, hdigits, hq, hspan⟩ := span_cases p
    rw [fractionLoop_digits hdata le_rfl (by omega) hdigits hq]
    simp only [hspan, zero_sub]
  · simp

/-! ## The scan -/

/-- What the exponent and the counters of a number allow. -/
def SumsFit (n : Numeral) : Prop :=
  n.whole.length - 128 < 2 ^ 31 ∧
    -2 ^ 31 ≤ exponentValue n.exponent - keptFraction n ∧
    exponentValue n.exponent + (n.whole.length - 128 : ℕ) < 2 ^ 31

/-- The scan of a text whose parts are known. -/
theorem strtod_parts {p₁ p₂ : List UInt8} (hwhole : p.span isDigit = (n.whole, p₁))
    (hfraction : scanFraction p₁ = (n.fraction.getD [], p₂))
    (hexponent : scanExponent p₂ = (exponentValue n.exponent, q)) (hdigits : digitsOf n ≠ [])
    (hmax : exponentValue n.exponent < 2 ^ 31) :
    (SumsFit n → strtod p = .ok (some { digits := n.kept, exponent := n.power, rest := q })) ∧
      (¬SumsFit n → strtod p = .error .fault) := by
  have hlength : (n.whole.take 128).length ≤ 128 := by simp
  have hroom : 128 - (n.whole.take 128).length = 128 - n.whole.length := by
    rw [List.length_take]
    omega
  have hkept : n.kept.isEmpty = false := by
    rw [Bool.eq_false_iff]
    exact fun h => hdigits ((kept_isEmpty n).mp h)
  have hpoint := pointLoop_scan (p := p₁) hlength
  rw [hfraction] at hpoint
  have hloop := wholeLoop_span (p := p)
  rw [hwhole] at hloop
  by_cases hdropped : n.whole.length - 128 < 2 ^ 31
  · rw [if_pos hdropped] at hloop
    have hcount : keptFraction n = min (128 - (n.whole.take 128).length)
        (n.fraction.getD []).length := by rw [hroom, keptFraction]
    have hfull : 0 < n.whole.length - 128 → keptFraction n = 0 := by
      unfold keptFraction
      omega
    have hpower : -(keptFraction n : ℤ) + exponentValue n.exponent + (n.whole.length - 128 : ℕ) =
        n.power := by
      have hwholes : n.whole.length - (n.whole.take 128).length = n.whole.length - 128 := by
        rw [List.length_take]
        omega
      rw [Numeral.power, hwholes, List.length_take (l := n.fraction.getD []), hcount]
      ring
    have hstrtod : strtod p =
        (addInt (-(keptFraction n : ℤ)) (exponentValue n.exponent)).bind fun exponent =>
          (addInt exponent (n.whole.length - 128 : ℕ)).bind fun exponent =>
            .ok (some { digits := n.kept, exponent := exponent, rest := q }) := by
      unfold strtod
      rw [hloop]
      simp only [bind, Except.bind, hpoint, hexponent, ← hcount]
      rw [← Numeral.kept, hkept]
      rfl
    rw [hstrtod]
    unfold SumsFit
    by_cases hfirst : -2 ^ 31 ≤ exponentValue n.exponent - keptFraction n
    · rw [addInt_ok (by omega) (by omega)]
      by_cases hsecond : exponentValue n.exponent + (n.whole.length - 128 : ℕ) < 2 ^ 31
      · refine ⟨fun _ => ?_, fun h => absurd ⟨hdropped, hfirst, hsecond⟩ h⟩
        rw [← hpower]
        simp only [Except.bind]
        rw [addInt_ok (by omega) (by omega)]
      · refine ⟨fun h => absurd h.2.2 hsecond, fun _ => ?_⟩
        have hzero := hfull (by omega)
        simp only [Except.bind]
        rw [addInt_fault (by omega)]
    · refine ⟨fun h => absurd h.2.1 hfirst, fun _ => ?_⟩
      rw [addInt_fault (by omega)]
      rfl
  · rw [if_neg hdropped] at hloop
    refine ⟨fun h => absurd h.1 hdropped, fun _ => ?_⟩
    unfold strtod
    rw [hloop]
    rfl

/-! ## The longest number -/

namespace IsLongest

theorem not_digit (h : IsLongest n q) : ∀ c ∈ q.head?, isDigit c = false := by
  intro c hc
  by_contra hdigit
  rw [Bool.not_eq_false] at hdigit
  obtain ⟨p, rfl⟩ : ∃ p, q = c :: p := by
    cases q with
    | nil => cases hc
    | cons d p => exact ⟨p, by rw [Option.some.inj hc]⟩
  have hmem : ∀ {digits : List UInt8}, (∀ d ∈ digits, isDigit d = true) →
      ∀ d ∈ digits ++ [c], isDigit d = true := by
    intro digits hdigits d hd
    rcases List.mem_append.mp hd with hd | hd
    · exact hdigits d hd
    · rwa [List.mem_singleton.mp hd]
  obtain ⟨whole, fraction, exponent⟩ := n
  obtain ⟨hwhole, hfraction, hexponent, hdigits⟩ := h.scanned
  -- the digit belongs to the last part that the number has
  have hlonger : ∃ m : Numeral, m.Scanned ∧
      m.text = (⟨whole, fraction, exponent⟩ : Numeral).text ++ [c] := by
    cases exponent with
    | some exponent =>
      obtain ⟨e, sign, digits⟩ := exponent
      obtain ⟨he, hsign, hne, hall⟩ := hexponent _ rfl
      refine ⟨⟨whole, fraction, some (e, sign, digits ++ [c])⟩,
        ⟨hwhole, hfraction, ?_, hdigits⟩, ?_⟩
      · intro exponent hsome
        rw [← Option.some.inj hsome]
        exact ⟨he, hsign, by simp, hmem hall⟩
      · simp [Numeral.text, exponentText]
    | none =>
      cases fraction with
      | some digits =>
        refine ⟨⟨whole, some (digits ++ [c]), none⟩, ⟨hwhole, ?_, by simp, by simp⟩, ?_⟩
        · intro fraction hsome
          rw [← Option.some.inj hsome]
          exact hmem (hfraction _ rfl)
        · simp [Numeral.text, exponentText, fractionText]
      | none =>
        exact ⟨⟨whole ++ [c], none, none⟩, ⟨hmem hwhole, by simp, by simp, by simp⟩,
          by simp [Numeral.text, exponentText, fractionText]⟩
  obtain ⟨m, hm, htext⟩ := hlonger
  have hle := h.longest m p hm (by rw [htext, List.append_assoc]; rfl)
  rw [htext, List.length_append, List.length_singleton] at hle
  omega

theorem ne_exponent (h : IsLongest n q) (hnone : n.exponent = none)
    {exponent : UInt8 × Option UInt8 × List UInt8} (hexponent : isExponent exponent)
    (p : List UInt8) : q ≠ exponentText (some exponent) ++ p := by
  rintro rfl
  obtain ⟨whole, fraction, _⟩ := n
  subst hnone
  obtain ⟨hwhole, hfraction, -, hdigits⟩ := h.scanned
  have hsome : ∀ e ∈ some exponent, isExponent e := fun e he => Option.some.inj he ▸ hexponent
  have hle := h.longest ⟨whole, fraction, some exponent⟩ p
    ⟨hwhole, hfraction, hsome, hdigits⟩ (by simp [Numeral.text, exponentText])
  simp [Numeral.text, exponentText] at hle

theorem no_exponent (h : IsLongest n q) (hnone : n.exponent = none) :
    scanExponent q = (0, q) := by
  obtain ⟨exponent, p, hq, hexponents, hscan⟩ := scanExponent_cases q
  cases exponent with
  | none =>
    have hrest : q = p := hq
    rwa [← hrest] at hscan
  | some exponent => exact absurd hq (h.ne_exponent hnone (hexponents _ rfl) p)

theorem no_point (h : IsLongest n q) (hfraction : n.fraction = none)
    (hexponent : n.exponent = none) : ∀ c ∈ q.head?, c ≠ 46 := by
  rintro c hc rfl
  obtain ⟨p, rfl⟩ : ∃ p, q = 46 :: p := by
    cases q with
    | nil => cases hc
    | cons d p => exact ⟨p, by rw [Option.some.inj hc]⟩
  obtain ⟨whole, _, _⟩ := n
  subst hfraction hexponent
  obtain ⟨hwhole, -, -, hdigits⟩ := h.scanned
  have hle := h.longest ⟨whole, some [], none⟩ p ⟨hwhole, by simp, by simp, by simpa using hdigits⟩
    (by simp [Numeral.text, exponentText, fractionText])
  simp [Numeral.text, exponentText, fractionText] at hle

/-- The parts of a text are those of the longest number it begins with. -/
theorem parts (h : IsLongest n q) : ∃ p₁ p₂,
    (n.text ++ q).span isDigit = (n.whole, p₁) ∧
      scanFraction p₁ = (n.fraction.getD [], p₂) ∧
      scanExponent p₂ = (exponentValue n.exponent, q) := by
  have hdigit := h.not_digit
  have hexponent : scanExponent (exponentText n.exponent ++ q) =
      (exponentValue n.exponent, q) := by
    cases hsome : n.exponent with
    | none => exact h.no_exponent hsome
    | some exponent => exact scanExponent_some (h.scanned.exponent _ hsome) hdigit
  have hbehind : ∀ c ∈ (exponentText n.exponent ++ q).head?, isDigit c = false := by
    intro c hc
    cases hsome : n.exponent with
    | none =>
      rw [hsome] at hc
      exact hdigit c hc
    | some exponent =>
      rw [hsome] at hc
      obtain rfl : exponent.1 = c := Option.some.inj hc
      exact (not_digit_of_exponent (h.scanned.exponent _ hsome).1).1
  have hpoint : n.fraction = none → ∀ c ∈ (exponentText n.exponent ++ q).head?, c ≠ 46 := by
    intro hnone c hc
    cases hsome : n.exponent with
    | none =>
      rw [hsome] at hc
      exact h.no_point hnone hsome c hc
    | some exponent =>
      rw [hsome] at hc
      obtain rfl : exponent.1 = c := Option.some.inj hc
      exact (not_digit_of_exponent (h.scanned.exponent _ hsome).1).2
  have hfraction : scanFraction (fractionText n.fraction ++ (exponentText n.exponent ++ q)) =
      (n.fraction.getD [], exponentText n.exponent ++ q) := by
    cases hsome : n.fraction with
    | some digits => exact span_digits (h.scanned.fraction _ hsome) hbehind
    | none => exact scanFraction_text (by simp) fun c hc => ⟨hbehind c hc, hpoint hsome c hc⟩
  refine ⟨_, _, ?_, hfraction, hexponent⟩
  rw [Numeral.text, List.append_assoc, List.append_assoc]
  refine span_digits h.scanned.whole fun c hc => ?_
  cases hsome : n.fraction with
  | none =>
    rw [hsome] at hc
    exact hbehind c hc
  | some digits =>
    rw [hsome] at hc
    obtain rfl : 46 = c := Option.some.inj hc
    rfl

end IsLongest

/-- A number is the longest one if nothing is behind it. -/
theorem isLongest_nil (h : n.Scanned) : IsLongest n [] where
  scanned := h
  longest m p _ htext := by
    have hlength := congrArg List.length htext
    rw [List.length_append, List.length_append, List.length_nil] at hlength
    omega

/-- The scan consumes the longest number, and none of its sums overflows, or one does. -/
theorem strtod_longest (h : IsLongest n q) (hmax : exponentValue n.exponent < 2 ^ 31) :
    (SumsFit n → strtod (n.text ++ q) =
      .ok (some { digits := n.kept, exponent := n.power, rest := q })) ∧
      (¬SumsFit n → strtod (n.text ++ q) = .error .fault) := by
  obtain ⟨p₁, p₂, hwhole, hfraction, hexponent⟩ := h.parts
  exact strtod_parts hwhole hfraction hexponent h.scanned.digits hmax

end Njs.Decimal
