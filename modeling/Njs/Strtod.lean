import Njs.Number
import Mathlib.Data.List.TakeWhile
import Mathlib.Data.Nat.Digits.Lemmas
import Mathlib.Tactic.Ring

/-!
# Reading and writing decimal numbers

`njs_strtod` scans the longest prefix of a text that is a decimal literal, keeps at most 128
of its digits and hands them, with an exponent of ten, to `njs_strtod_internal`. That
function is a parameter here, of which only integers are known to be exact.
-/

namespace Njs

/-- A digit: `(u_char) (c - '0') <= 9`. -/
def isDigit (c : UInt8) : Bool := c - 48 ≤ 9

/-- What `njs_strtod` finds: the digits that are kept, the exponent of ten of the last one,
and the text behind the literal. -/
structure Literal where
  digits : List UInt8
  exponent : ℤ
  rest : List UInt8
  deriving DecidableEq

/-- The loop over the digits of the exponent. The exponent does not grow beyond
`(INT_MAX - 9) / 10`. -/
def exponentLoop (exp : ℕ) : List UInt8 → ℕ × List UInt8
  | [] => (exp, [])
  | c :: p =>
    if isDigit c then
      exponentLoop (if exp < (2 ^ 31 - 1 - 9) / 10 then exp * 10 + (c - 48).toNat else exp) p
    else (exp, c :: p)

/-- The exponent part of a literal, behind its sign. -/
def scanDigitsOfExponent (minus : Bool) (p : List UInt8) : List UInt8 → ℤ × List UInt8
  | [] => (0, p)
  | c :: e =>
    if isDigit c then
      let (exp, p) := exponentLoop (c - 48).toNat e
      (if minus then -exp else exp, p)
    else (0, p)

/-- The exponent part of a literal, if there is one. -/
def scanExponent (p : List UInt8) : ℤ × List UInt8 :=
  match p with
  | c :: e =>
    if c = 101 ∨ c = 69 then
      match e with
      | 45 :: d :: e => scanDigitsOfExponent true p (d :: e)
      | 43 :: d :: e => scanDigitsOfExponent false p (d :: e)
      | e => scanDigitsOfExponent false p e
    else (0, p)
  | [] => (0, p)

/-- The fraction of a literal and what follows it. -/
def scanFraction : List UInt8 → List UInt8 × List UInt8
  | 46 :: p => p.span isDigit
  | p => ([], p)

/-- The scan of `njs_strtod`. -/
def scanLiteral (text : List UInt8) : Option Literal :=
  let (whole, p) := text.span isDigit
  let data := whole.take 128
  let insignf := whole.length - data.length
  let (fraction, p) := scanFraction p
  let kept := fraction.take (128 - data.length)
  if (data ++ kept).isEmpty then none
  else
    let (exp, p) := scanExponent p
    some { digits := data ++ kept, exponent := insignf - kept.length + exp, rest := p }

/-- The decimal digits of a number, as `njs_sprintf` writes them for `%uD`. -/
def decimal (n : ℕ) : List UInt8 :=
  if n = 0 then [48] else (Nat.digits 10 n).reverse.map fun d => 48 + d.toUInt8

/-- The number that a list of digits stands for. -/
def digitsValue (digits : List UInt8) : ℕ :=
  digits.foldl (fun n c => 10 * n + (c - 48).toNat) 0

/-- `njs_strtod_internal`: the number of some digits and an exponent of ten. -/
structure Strtod where
  internal : List UInt8 → ℤ → Number
  /-- Integers of at most 53 bits are exact. -/
  exact : ∀ n < 2 ^ 53, internal (decimal n) 0 = .finite n

/-- `njs_strtod`, with the text that is left. -/
def Strtod.parse (strtod : Strtod) (text : List UInt8) : Number × List UInt8 :=
  match scanLiteral text with
  | some literal => (strtod.internal literal.digits literal.exponent, literal.rest)
  | none => (.nan, text)

/-- `njs_string_to_index`. -/
def Strtod.stringToIndex (strtod : Strtod) (text : List UInt8) : Number :=
  match text with
  | [] => .nan
  | c :: rest =>
    if c = 48 ∧ rest ≠ [] then .nan
    else
      let (num, p) := strtod.parse text
      if p ≠ [] then .nan else num

theorem isDigit_of_lt {d : ℕ} (h : d < 10) : isDigit (48 + d.toUInt8) = true := by
  interval_cases d <;> rfl

theorem decimal_isDigit (n : ℕ) : ∀ c ∈ decimal n, isDigit c = true := by
  unfold decimal
  split_ifs with hzero
  · intro c hc
    rw [List.mem_singleton.mp hc]
    rfl
  · intro c hc
    obtain ⟨d, hd, rfl⟩ := List.mem_map.mp hc
    exact isDigit_of_lt (Nat.digits_lt_base (by omega) (List.mem_reverse.mp hd))

theorem decimal_ne_nil (n : ℕ) : decimal n ≠ [] := by
  unfold decimal
  split_ifs with hzero
  · exact List.cons_ne_nil _ _
  · simpa [Nat.digits_eq_nil_iff_eq_zero] using hzero

/-- The digits of a number stand for it. -/
theorem digitsValue_decimal (n : ℕ) : digitsValue (decimal n) = n := by
  have hdigit : ∀ d < 10, (48 + d.toUInt8 - 48 : UInt8).toNat = d := by
    intro d hd
    interval_cases d <;> rfl
  have hfold : ∀ l : List ℕ, (∀ d ∈ l, d < 10) →
      l.foldr (fun d n => 10 * n + (48 + d.toUInt8 - 48 : UInt8).toNat) 0 = Nat.ofDigits 10 l := by
    intro l hl
    induction l with
    | nil => rfl
    | cons d l ih =>
      rw [List.foldr_cons, ih fun d hd => hl d (List.mem_cons_of_mem _ hd),
        hdigit d (hl d List.mem_cons_self), Nat.ofDigits_cons]
      ring
  unfold digitsValue decimal
  split_ifs with hzero
  · rw [hzero]
    rfl
  · rw [List.foldl_map, List.foldl_reverse, hfold _ fun d hd => Nat.digits_lt_base (by omega) hd,
      Nat.ofDigits_digits]

/-- Numbers without rounding. -/
def Strtod.unrounded : Strtod where
  internal digits exponent := .finite (digitsValue digits * 10 ^ exponent)
  exact n _ := by
    rw [digitsValue_decimal, zpow_zero, mul_one]

/-- Only zero begins with the digit zero. -/
theorem decimal_head_ne {n : ℕ} (h : n ≠ 0) : (decimal n).head? ≠ some 48 := by
  have hne : Nat.digits 10 n ≠ [] := Nat.digits_ne_nil_iff_ne_zero.mpr h
  have hlast := Nat.getLast_digit_ne_zero 10 h
  have hlt : (Nat.digits 10 n).getLast hne < 10 :=
    Nat.digits_lt_base (by omega) (List.getLast_mem hne)
  unfold decimal
  rw [if_neg h, List.head?_map, List.head?_reverse, List.getLast?_eq_getLast_of_ne_nil hne]
  generalize (Nat.digits 10 n).getLast hne = d at hlast hlt
  interval_cases d <;> simp_all

theorem length_decimal_le {n : ℕ} (h : n < 2 ^ 53) : (decimal n).length ≤ 16 := by
  unfold decimal
  split_ifs with hzero
  · decide
  · rw [List.length_map, List.length_reverse, Nat.digits_length_le_iff (by omega)]
    omega

theorem span_eq_of_all {p : UInt8 → Bool} {l : List UInt8} (h : ∀ c ∈ l, p c = true) :
    l.span p = (l, []) := by
  rw [List.span_eq_takeWhile_dropWhile, List.takeWhile_eq_self_iff.mpr h,
    List.dropWhile_eq_nil_iff.mpr h]

/-- The digits of a number are scanned as they are. -/
theorem scanLiteral_decimal {n : ℕ} (h : n < 2 ^ 53) :
    scanLiteral (decimal n) = some { digits := decimal n, exponent := 0, rest := [] } := by
  have hlength := length_decimal_le h
  have htake : (decimal n).take 128 = decimal n := List.take_of_length_le (by omega)
  unfold scanLiteral
  rw [span_eq_of_all (decimal_isDigit n)]
  simp [htake, scanFraction, decimal_ne_nil, scanExponent]

/-- A number below `2 ^ 53` is read back from its digits. -/
theorem Strtod.stringToIndex_decimal (strtod : Strtod) {n : ℕ} (h : n < 2 ^ 53) :
    strtod.stringToIndex (decimal n) = .finite n := by
  have hparse : strtod.parse (decimal n) = (.finite n, []) := by
    unfold parse
    rw [scanLiteral_decimal h]
    simp only [strtod.exact n h]
  rcases hd : decimal n with - | ⟨c, rest⟩
  · exact absurd hd (decimal_ne_nil n)
  · rw [hd] at hparse
    have hzero : ¬(c = 48 ∧ rest ≠ []) := by
      rintro ⟨rfl, hrest⟩
      by_cases hn : n = 0
      · subst hn
        have hone : decimal 0 = [48] := rfl
        rw [hone] at hd
        exact hrest (List.cons.inj hd).2.symm
      · exact decimal_head_ne hn (by rw [hd]; rfl)
    simp only [stringToIndex, if_neg hzero, hparse]
    rfl

theorem decimal_injective (strtod : Strtod) {m n : ℕ} (hm : m < 2 ^ 53) (hn : n < 2 ^ 53)
    (h : decimal m = decimal n) : m = n := by
  have heq := strtod.stringToIndex_decimal hm
  rw [h, strtod.stringToIndex_decimal hn] at heq
  have hcast : (n : ℚ) = m := by injection heq
  exact_mod_cast hcast.symm

end Njs
