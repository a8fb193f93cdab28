import Njs.Decimal.Printing
import Mathlib.Data.Rat.Floor

/-!
# Property keys that are array indexes

`njs_value_to_index` reads a key with the scanner of decimal literals and keeps a value that is
an integer. The literals it reads are those of `njs_strtod`, whose result is taken to be the
exact value rounded to a double.
-/

namespace Njs.Decimal

open Json

variable {text s : List UInt8} {n : ℕ} {r : Rounding}

/-- The fraction of a number, if there is a point, and what follows it. -/
def splitFraction : List UInt8 → Option (List UInt8) × List UInt8
  | 46 :: p => (some (p.span isDigit).1, (p.span isDigit).2)
  | p => (none, p)

/-- A sign and what follows it. -/
def splitSign : List UInt8 → Option UInt8 × List UInt8
  | 45 :: p => (some 45, p)
  | 43 :: p => (some 43, p)
  | p => (none, p)

/-- The exponent of a number, if there are digits behind its letter, and what follows it. -/
def splitExponent : List UInt8 → Option (UInt8 × Option UInt8 × List UInt8) × List UInt8
  | [] => (none, [])
  | e :: p =>
    if (e = 101 ∨ e = 69) ∧ ((splitSign p).2.span isDigit).1 ≠ [] then
      (some (e, (splitSign p).1, ((splitSign p).2.span isDigit).1),
        ((splitSign p).2.span isDigit).2)
    else (none, e :: p)

/-- The number that `njs_strtod` scans and the text behind it. -/
def scanNumeral (text : List UInt8) : Option (Numeral × List UInt8) :=
  let fraction := splitFraction (text.span isDigit).2
  let exponent := splitExponent fraction.2
  if (text.span isDigit).1 ++ fraction.1.getD [] = [] then none
  else some (⟨(text.span isDigit).1, fraction.1, exponent.1⟩, exponent.2)

/-- `njs_strtod`, with the text that is left: the value of the number that is scanned is rounded
once. -/
def Rounding.strtod (r : Rounding) (text : List UInt8) : Number × List UInt8 :=
  match scanNumeral text with
  | some scanned => (r.round (value scanned.1), scanned.2)
  | none => (.nan, text)

/-- `njs_string_to_index`. -/
def Rounding.stringToIndex (r : Rounding) (s : List UInt8) : Number :=
  if s = [] then .nan
  else if s.head? = some 48 ∧ 1 < s.length then .nan
  else if (r.strtod s).2 ≠ [] then .nan
  else (r.strtod s).1

/-- A primitive value as a property key. -/
inductive Key (r : Rounding)
  | undefined
  | null
  | boolean (b : Bool)
  | number (x : Number) (double : r.IsDouble x)
  | string (s : List UInt8)

/-- `NJS_ARRAY_MAX_INDEX`, which is `NJS_ARRAY_INVALID_INDEX` too. -/
def maxIndex : ℕ := 2 ^ 32 - 1

/-- The number that `njs_value_to_index` looks at. -/
def Key.num : Key r → Number
  | .undefined => .nan
  | .null => .finite 0
  | .boolean b => .finite (if b then 1 else 0)
  | .number x _ => x
  | .string s => r.stringToIndex s

/-- `njs_value_to_index` of a primitive value. -/
def valueToIndex (key : Key r) : ℕ :=
  if .finite key.num.castUInt32 = key.num then key.num.castUInt32 else maxIndex

/-- The array element that `njs_object_property_query` takes for a key. -/
def element (key : Key r) : Option ℕ :=
  match key with
  | .undefined => none
  | .null => none
  | .boolean _ => none
  | key => if valueToIndex key < maxIndex then some (valueToIndex key) else none

/-- `njs_primitive_value_to_string`. -/
def Key.toString (g : Grisu r) : Key r → List UInt8
  | .undefined => [117, 110, 100, 101, 102, 105, 110, 101, 100]
  | .null => [110, 117, 108, 108]
  | .boolean b => if b then [116, 114, 117, 101] else [102, 97, 108, 115, 101]
  | .number x _ => g.numberToString x
  | .string s => s

/-- The index of a string key below `2 ^ 32 - 1` is the number whose decimal representation the
string is. -/
def Key.DecimalOnly (key : Key r) : Prop :=
  ∀ s, key = .string s → ∀ n < maxIndex, valueToIndex key = n ↔ s = decimal n

/-- Two keys are canonical: each one that is a string is an index only as a decimal
representation, and an element that one of them addresses is the one the other addresses if
and only if they are the same string. -/
structure Canonical (g : Grisu r) (first second : Key r) : Prop where
  firstDecimal : first.DecimalOnly
  secondDecimal : second.DecimalOnly
  same : ∀ n, element first = some n ∨ element second = some n →
    (element first = element second ↔ first.toString g = second.toString g)

/-- A string that is an index without being the digits of an integer: a literal that does not
begin with a zero, with a point or an exponent, whose value is rounded to an index. -/
def Disguised (key : Key r) : Prop :=
  ∃ n : Numeral, n.Scanned ∧ key = .string n.text ∧ n.text.head? ≠ some 48 ∧
    (n.fraction ≠ none ∨ n.exponent ≠ none) ∧ ∃ i < maxIndex, r.round (value n) = .finite i

/-! ## The scan -/

variable {p q digits : List UInt8} {m : Numeral}

theorem splitFraction_text {fraction : Option (List UInt8)}
    (hdigits : ∀ digits ∈ fraction, ∀ c ∈ digits, isDigit c = true)
    (hq : ∀ c ∈ q.head?, isDigit c = false) (hpoint : fraction = none → ∀ c ∈ q.head?, c ≠ 46) :
    splitFraction (fractionText fraction ++ q) = (fraction, q) := by
  cases fraction with
  | some digits =>
    simp only [fractionText, List.cons_append, splitFraction]
    rw [span_digits (hdigits digits rfl) hq]
  | none =>
    simp only [fractionText, List.nil_append]
    unfold splitFraction
    split
    · exact absurd rfl (hpoint rfl 46 rfl)
    · rfl

theorem splitFraction_cases (p : List UInt8) : ∃ fraction q, p = fractionText fraction ++ q ∧
    (∀ digits ∈ fraction, ∀ c ∈ digits, isDigit c = true) ∧ splitFraction p = (fraction, q) := by
  unfold splitFraction
  split
  · rename_i p
    obtain ⟨digits, q, rfl, hdigits, -, hspan⟩ := span_cases p
    refine ⟨some digits, q, rfl, fun _ h => Option.some.inj h ▸ hdigits, ?_⟩
    rw [hspan]
  · exact ⟨none, p, rfl, by rintro - ⟨⟩, rfl⟩

theorem splitSign_text {sign : Option UInt8} {c : UInt8} (hsign : ∀ s ∈ sign, s = 45 ∨ s = 43)
    (hc : isDigit c = true) : splitSign (sign.toList ++ c :: p) = (sign, c :: p) := by
  cases sign with
  | some sign =>
    rcases hsign sign rfl with rfl | rfl
    · rfl
    · rfl
  | none =>
    simp only [Option.toList_none, List.nil_append]
    unfold splitSign
    split
    · rename_i heq
      rw [(List.cons.inj heq).1] at hc
      cases hc
    · rename_i heq
      rw [(List.cons.inj heq).1] at hc
      cases hc
    · rfl

theorem splitSign_cases (p : List UInt8) : ∃ sign q, p = sign.toList ++ q ∧
    (∀ s ∈ sign, s = 45 ∨ s = 43) ∧ splitSign p = (sign, q) := by
  unfold splitSign
  split
  · exact ⟨some 45, _, rfl, by simp, rfl⟩
  · exact ⟨some 43, _, rfl, by simp, rfl⟩
  · exact ⟨none, _, rfl, by simp, rfl⟩

theorem splitExponent_some {exponent : UInt8 × Option UInt8 × List UInt8}
    (hexponent : isExponent exponent) (hq : ∀ c ∈ q.head?, isDigit c = false) :
    splitExponent (exponentText (some exponent) ++ q) = (some exponent, q) := by
  obtain ⟨e, sign, digits⟩ := exponent
  obtain ⟨he, hsign, hne, hdigits⟩ := hexponent
  simp only at he hsign hne hdigits
  have hspan := span_digits hdigits hq
  obtain ⟨d, digits, rfl⟩ := List.exists_cons_of_ne_nil hne
  have hsplit : splitSign (sign.toList ++ d :: digits ++ q) = (sign, d :: digits ++ q) := by
    rw [List.append_assoc]
    exact splitSign_text hsign (hdigits d List.mem_cons_self)
  simp only [exponentText, List.cons_append, splitExponent, hsplit]
  rw [← List.cons_append, hspan, if_pos ⟨he, hne⟩]

theorem splitExponent_cases (p : List UInt8) : ∃ exponent q, p = exponentText exponent ++ q ∧
    (∀ e ∈ exponent, isExponent e) ∧ splitExponent p = (exponent, q) := by
  cases p with
  | nil => exact ⟨none, [], rfl, by rintro - ⟨⟩, rfl⟩
  | cons e p =>
    obtain ⟨sign, p, rfl, hsign, hsplit⟩ := splitSign_cases p
    obtain ⟨digits, q, rfl, hdigits, -, hspan⟩ := span_cases p
    simp only [splitExponent, hsplit, hspan]
    by_cases hletter : (e = 101 ∨ e = 69) ∧ digits ≠ []
    · rw [if_pos hletter]
      refine ⟨some (e, sign, digits), q, by simp [exponentText], ?_, rfl⟩
      rintro - ⟨⟩
      exact ⟨hletter.1, hsign, hletter.2, hdigits⟩
    · rw [if_neg hletter]
      exact ⟨none, _, rfl, by rintro - ⟨⟩, rfl⟩

/-- The longest number is scanned. -/
theorem scanNumeral_longest (h : IsLongest m q) : scanNumeral (m.text ++ q) = some (m, q) := by
  have hdigit := h.not_digit
  obtain ⟨whole, fraction, exponent⟩ := m
  obtain ⟨hwhole, hfraction, hexponent, hdigits⟩ := h.scanned
  have hsplit : splitExponent (exponentText exponent ++ q) = (exponent, q) := by
    cases exponent with
    | some exponent => exact splitExponent_some (hexponent _ rfl) hdigit
    | none =>
      obtain ⟨exponent, p, hq, hexponents, hscan⟩ := splitExponent_cases q
      cases exponent with
      | none =>
        have hrest : q = p := hq
        rwa [← hrest] at hscan
      | some exponent => exact absurd hq (h.ne_exponent rfl (hexponents _ rfl) p)
  have hbehind : ∀ c ∈ (exponentText exponent ++ q).head?,
      isDigit c = false ∧ (fraction = none → c ≠ 46) := by
    intro c hc
    cases exponent with
    | none => exact ⟨hdigit c hc, fun hnone => h.no_point hnone rfl c hc⟩
    | some exponent =>
      obtain rfl : exponent.1 = c := Option.some.inj hc
      have hletter := not_digit_of_exponent (hexponent _ rfl).1
      exact ⟨hletter.1, fun _ => hletter.2⟩
  have hbefore : ∀ c ∈ (fractionText fraction ++ (exponentText exponent ++ q)).head?,
      isDigit c = false := by
    intro c hc
    cases fraction with
    | none => exact (hbehind c hc).1
    | some digits =>
      obtain rfl : 46 = c := Option.some.inj hc
      rfl
  have hpoint := splitFraction_text hfraction (fun c hc => (hbehind c hc).1)
    fun hnone c hc => (hbehind c hc).2 hnone
  unfold scanNumeral
  simp only [Numeral.text, List.append_assoc, span_digits hwhole hbefore, hpoint, hsplit,
    if_neg hdigits]

/-- What is scanned is a number at the beginning of the text. -/
theorem scanNumeral_sound (h : scanNumeral text = some (m, q)) :
    m.Scanned ∧ text = m.text ++ q := by
  obtain ⟨whole, p, rfl, hwhole, -, hspan⟩ := span_cases text
  obtain ⟨fraction, p, rfl, hfraction, hpoint⟩ := splitFraction_cases p
  obtain ⟨exponent, p, rfl, hexponent, hsplit⟩ := splitExponent_cases p
  unfold scanNumeral at h
  simp only [hspan, hpoint, hsplit] at h
  split_ifs at h with hempty
  obtain ⟨rfl, rfl⟩ := Prod.mk.inj (Option.some.inj h)
  exact ⟨⟨hwhole, hfraction, hexponent, hempty⟩, by simp [Numeral.text]⟩

/-! ## Indexes -/

theorem value_whole (digits : List UInt8) : value ⟨digits, none, none⟩ = digitsValue digits := by
  simp [value, digitsOf, exactExponent]

/-- No value from `2 ^ 53 - 1` on is rounded to an index. -/
theorem Rounding.eq_of_integer (r : Rounding) {m i : ℕ} (hi : i < maxIndex)
    (h : r.round m = .finite i) : m = i := by
  by_cases hsmall : m < 2 ^ 53
  · rw [r.exact m hsmall] at h
    exact_mod_cast Number.finite.inj h
  · have hle : ((2 ^ 53 - 1 : ℕ) : ℚ) ≤ m := by exact_mod_cast (by omega : 2 ^ 53 - 1 ≤ m)
    have hmono := r.mono _ _ _ _ hle (r.exact (2 ^ 53 - 1) (by omega)) h
    have hnat : 2 ^ 53 - 1 ≤ i := by exact_mod_cast hmono
    unfold maxIndex at hi
    omega

theorem valueToIndex_eq_iff {key : Key r} (hn : n < maxIndex) :
    valueToIndex key = n ↔ key.num = .finite n := by
  unfold valueToIndex
  constructor
  · intro h
    split_ifs at h with heq
    · rw [← heq, h]
    · omega
  · intro h
    have hcast : (Number.finite n).castUInt32 = n :=
      castUInt32_natCast (by unfold maxIndex at hn; omega)
    rw [h, hcast, if_pos rfl]

/-- The index of a string that is scanned to its end. -/
theorem stringToIndex_eq_iff {x : ℚ} : r.stringToIndex s = .finite x ↔
    (∃ m : Numeral, m.Scanned ∧ s = m.text ∧ r.round (value m) = .finite x) ∧
      ¬(s.head? = some 48 ∧ 1 < s.length) := by
  unfold Rounding.stringToIndex
  constructor
  · intro h
    split_ifs at h with hempty hzero hrest
    refine ⟨?_, hzero⟩
    unfold Rounding.strtod at h hrest
    cases hscan : scanNumeral s with
    | none =>
      rw [hscan] at h
      cases h
    | some scanned =>
      obtain ⟨m, q⟩ := scanned
      rw [hscan] at h hrest
      obtain ⟨hm, htext⟩ := scanNumeral_sound hscan
      have hq : q = [] := not_not.mp hrest
      rw [hq, List.append_nil] at htext
      exact ⟨m, hm, htext, h⟩
  · rintro ⟨⟨m, hm, rfl, hround⟩, hzero⟩
    have hscan := scanNumeral_longest (isLongest_nil hm)
    rw [List.append_nil] at hscan
    have hstrtod : r.strtod m.text = (.finite x, []) := by
      unfold Rounding.strtod
      rw [hscan, ← hround]
    rw [if_neg hm.text_ne_nil, if_neg hzero, hstrtod, if_neg (by simp)]

/-- A string without a point and an exponent is an index only as the digits of the index. -/
theorem index_string_iff (h : ¬Disguised (r := r) (.string s)) (hn : n < maxIndex) :
    valueToIndex (r := r) (.string s) = n ↔ s = decimal n := by
  have hsmall : n < 2 ^ 53 := by
    unfold maxIndex at hn
    omega
  rw [valueToIndex_eq_iff hn]
  refine (stringToIndex_eq_iff (r := r) (s := s)).trans ⟨?_, ?_⟩
  · rintro ⟨⟨m, hm, rfl, hround⟩, hzero⟩
    by_cases hplain : m.fraction ≠ none ∨ m.exponent ≠ none
    · refine absurd ⟨m, hm, rfl, fun hhead => hzero ⟨hhead, ?_⟩, hplain, n, hn, hround⟩ h
      obtain ⟨whole, fraction, exponent⟩ := m
      have hdigits := List.length_pos_iff.mpr hm.digits
      rw [List.length_append] at hdigits
      simp only [Numeral.text, List.length_append] at hdigits ⊢
      rcases hplain with hfraction | hexponent
      · obtain ⟨digits, rfl⟩ := Option.ne_none_iff_exists'.mp hfraction
        cases whole with
        | nil => cases hhead
        | cons c whole =>
          simp [fractionText]
          omega
      · obtain ⟨⟨e, sign, digits⟩, rfl⟩ := Option.ne_none_iff_exists'.mp hexponent
        have hne := List.length_pos_iff.mpr (exponent_digits hm rfl).1
        simp [exponentText]
        omega
    · obtain ⟨whole, fraction, exponent⟩ := m
      obtain ⟨rfl, rfl⟩ : fraction = none ∧ exponent = none := by
        simpa only [ne_eq, not_or, not_not] using hplain
      have htext : (⟨whole, none, none⟩ : Numeral).text = whole := by
        simp [Numeral.text, fractionText, exponentText]
      rw [htext] at hzero ⊢
      rw [value_whole] at hround
      have hvalue := r.eq_of_integer hn hround
      have hne : whole ≠ [] := by simpa using hm.digits
      by_cases hhead : whole.head? = some 48
      · obtain ⟨c, rest, rfl⟩ := List.exists_cons_of_ne_nil hne
        obtain rfl : c = 48 := Option.some.inj hhead
        have hrest : rest = [] := by
          by_contra hrest
          have hpos := List.length_pos_iff.mpr hrest
          exact hzero ⟨rfl, by rw [List.length_cons]; omega⟩
        subst hrest
        rw [← hvalue]
        rfl
      · rw [← hvalue, decimal_digitsValue hm.whole hne hhead]
  · rintro rfl
    refine ⟨⟨⟨decimal n, none, none⟩, ⟨decimal_isDigit n, by rintro - ⟨⟩, by rintro - ⟨⟩,
      by simpa using decimal_ne_nil n⟩, by simp [Numeral.text, fractionText, exponentText], ?_⟩, ?_⟩
    · rw [value_whole, digitsValue_decimal]
      exact r.exact n hsmall
    · rintro ⟨hhead, hlength⟩
      by_cases hzero : n = 0
      · subst hzero
        exact absurd hlength (by decide)
      · exact decimal_head_ne hzero hhead

/-- A disguised string is an index that is not its decimal representation. -/
theorem not_decimalOnly {key : Key r} (h : Disguised key) : ¬key.DecimalOnly := by
  obtain ⟨m, hm, rfl, hhead, hplain, i, hi, hround⟩ := h
  intro honly
  have hindex : valueToIndex (r := r) (.string m.text) = i := by
    rw [valueToIndex_eq_iff hi]
    exact stringToIndex_eq_iff.mpr ⟨⟨m, hm, rfl, hround⟩, fun hzero => hhead hzero.1⟩
  have htext := (honly m.text rfl i hi).mp hindex
  rcases hplain with hfraction | hexponent
  · obtain ⟨digits, hsome⟩ := Option.ne_none_iff_exists'.mp hfraction
    refine not_mem_decimal (n := i) (c := 46) (by decide) ?_
    rw [← htext]
    simp [Numeral.text, hsome, fractionText]
  · obtain ⟨exponent, hsome⟩ := Option.ne_none_iff_exists'.mp hexponent
    refine not_mem_decimal (n := i) (not_digit_of_exponent (hm.exponent _ hsome).1).1 ?_
    rw [← htext]
    simp [Numeral.text, hsome, exponentText]

/-- A key that is not disguised addresses an element if and only if its string is the decimal
representation of the index. -/
theorem element_eq_some_iff (g : Grisu r) {key : Key r} (h : ¬Disguised key) (hn : n < maxIndex) :
    element key = some n ↔ key.toString g = decimal n := by
  have hindex : ∀ {key : Key r}, (if valueToIndex key < maxIndex then some (valueToIndex key)
      else none) = some n ↔ valueToIndex key = n := by
    intro key
    constructor
    · intro heq
      split_ifs at heq
      exact Option.some.inj heq
    · rintro rfl
      exact if_pos hn
  cases key with
  | undefined => exact iff_of_false (by rintro ⟨⟩) (cons_ne_decimal 117 (by decide) _)
  | null => exact iff_of_false (by rintro ⟨⟩) (cons_ne_decimal 110 (by decide) _)
  | boolean b =>
    refine iff_of_false (by rintro ⟨⟩) ?_
    cases b with
    | false => exact cons_ne_decimal 102 (by decide) _
    | true => exact cons_ne_decimal 116 (by decide) _
  | number x hx =>
    have hsmall : n < 2 ^ 53 := by
      unfold maxIndex at hn
      omega
    exact (hindex.trans (valueToIndex_eq_iff hn)).trans
      (g.numberToString_eq_decimal_iff hx hsmall).symm
  | string s => exact hindex.trans (index_string_iff h hn)

theorem element_lt {key : Key r} (h : element key = some n) : n < maxIndex := by
  unfold element at h
  split at h
  · cases h
  · cases h
  · cases h
  · split_ifs at h with hlt
    rwa [← Option.some.inj h]

/-- Two keys are canonical exactly if neither is a literal with a point or an exponent whose
value is an index. -/
theorem canonical_iff (g : Grisu r) (first second : Key r) :
    Canonical g first second ↔ ¬Disguised first ∧ ¬Disguised second := by
  constructor
  · intro h
    exact ⟨fun hd => not_decimalOnly hd h.firstDecimal,
      fun hd => not_decimalOnly hd h.secondDecimal⟩
  · rintro ⟨hfirst, hsecond⟩
    refine ⟨?_, ?_, fun n hn => ?_⟩
    · rintro s rfl n hn
      exact index_string_iff hfirst hn
    · rintro s rfl n hn
      exact index_string_iff hsecond hn
    · rcases hn with hn | hn
      · have hdecimal := (element_eq_some_iff g hfirst (element_lt hn)).mp hn
        rw [hn, hdecimal, eq_comm, element_eq_some_iff g hsecond (element_lt hn), eq_comm]
      · have hdecimal := (element_eq_some_iff g hsecond (element_lt hn)).mp hn
        rw [hn, hdecimal, element_eq_some_iff g hfirst (element_lt hn)]

/-- Doubles that are integers only. -/
def Rounding.floored : Rounding where
  round q := .finite ⌊q⌋
  exact n _ := by simp
  mono := by
    rintro a b - - hle ⟨⟩ ⟨⟩
    exact_mod_cast Int.floor_mono hle

/-- The digits of integers. -/
def flooredDigits (q : ℚ) : List UInt8 × ℤ :=
  if ⌊q⌋.toNat = 0 then ([49], 0) else (decimal ⌊q⌋.toNat, (decimal ⌊q⌋.toNat).length)

theorem flooredDigits_ne_nil (q : ℚ) : (flooredDigits q).1 ≠ [] := by
  unfold flooredDigits
  split_ifs
  · exact List.cons_ne_nil _ _
  · exact decimal_ne_nil _

theorem flooredDigits_isDigit (q : ℚ) : ∀ c ∈ (flooredDigits q).1, isDigit c = true := by
  unfold flooredDigits
  split_ifs
  · exact fun _ hc => List.mem_singleton.mp hc ▸ rfl
  · exact decimal_isDigit _

theorem flooredDigits_head (q : ℚ) : (flooredDigits q).1.head? ≠ some 48 := by
  unfold flooredDigits
  split_ifs with hzero
  · simp
  · exact decimal_head_ne hzero

theorem flooredDigits_roundTrip {q : ℚ} (hpos : 0 < q)
    (hdouble : Rounding.floored.round q = .finite q) :
    Rounding.floored.round (pointValue (flooredDigits q)) = .finite q := by
  have hfloor : (⌊q⌋ : ℚ) = q := Number.finite.inj hdouble
  have hpositive : 0 < ⌊q⌋ := by
    rw [← hfloor] at hpos
    exact_mod_cast hpos
  have hcast : ((⌊q⌋.toNat : ℕ) : ℚ) = q := by
    rw [← hfloor]
    exact_mod_cast Int.toNat_of_nonneg hpositive.le
  rw [flooredDigits, if_neg (by omega), pointValue, digitsValue_decimal, sub_self, zpow_zero,
    mul_one, hcast]
  exact hdouble

theorem flooredDigits_integer {n : ℕ} (hzero : 0 < n) : pointValue (flooredDigits n) = n ∧
    (flooredDigits (n : ℚ)).1.length ≤ (flooredDigits (n : ℚ)).2 := by
  have hfloor : ⌊(n : ℚ)⌋.toNat = n := by simp
  rw [flooredDigits, hfloor, if_neg (by omega)]
  exact ⟨by rw [pointValue, digitsValue_decimal, sub_self, zpow_zero, mul_one], le_rfl⟩

/-- The digits of doubles that are integers. -/
def Grisu.floored : Grisu .floored where
  grisu2 := flooredDigits
  nonempty q _ := flooredDigits_ne_nil q
  digits q _ := flooredDigits_isDigit q
  leading q _ := flooredDigits_head q
  roundTrip _ hpos hdouble := flooredDigits_roundTrip hpos hdouble
  integer _ hzero _ := flooredDigits_integer hzero

/-- `1e3` is the index 1000. -/
theorem thousand_not_canonical : ¬∀ (r : Rounding) (g : Grisu r) (first second : Key r),
    Canonical g first second := by
  intro h
  refine not_decimalOnly ?_ (h .floored .floored (.string [49, 101, 51]) .null).firstDecimal
  have hscanned : (⟨[49], none, some (101, none, [51])⟩ : Numeral).Scanned :=
    ⟨fun _ hc => List.mem_singleton.mp hc ▸ rfl, by simp,
      fun _ he => Option.some.inj he ▸ ⟨by simp, by simp, by simp,
        fun _ hc => List.mem_singleton.mp hc ▸ rfl⟩, by simp⟩
  have hvalue : value ⟨[49], none, some (101, none, [51])⟩ = (1000 : ℕ) := by
    have hone : digitsValue [49] = 1 := by decide
    have hthree : digitsValue [51] = 3 := by decide
    have hsign : (none : Option UInt8) ≠ some 45 := by simp
    norm_num [value, digitsOf, exactExponent, hone, hthree, hsign]
  refine ⟨_, hscanned, rfl, by simp [Numeral.text], by simp, 1000, by decide, ?_⟩
  rw [hvalue]
  exact Rounding.floored.exact 1000 (by omega)

end Njs.Decimal
