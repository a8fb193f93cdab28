import Njs.Integers.Parsers
import Njs.Decimal.Keys
import Njs.Str.ByteStrings
import Mathlib.Data.Nat.ModEq

/-!
# Where the parsers of integers wrap

The accumulator is the value of the digits modulo `2 ^ 64`. A number below that has not the
value of the digits unless it did not wrap, even when both are rounded.
-/

namespace Njs.Integers

variable {digit : UInt8 → Option ℕ} {base num : ℕ} {text p q : List UInt8} {r : Rounding}

/-! ## The loops -/

theorem positional_cons (c : UInt8) (start : ℕ) :
    positional digit base start (c :: p) =
      positional digit base (start * base + (digit c).getD 0) p := rfl

theorem positional_mod (start : ℕ) :
    positional digit base (start % 2 ^ 64) p % 2 ^ 64 =
      positional digit base start p % 2 ^ 64 := by
  induction p generalizing start with
  | nil => exact Nat.mod_mod _ _
  | cons c p ih =>
    rw [positional_cons, positional_cons, ← ih, ← ih (start * base + (digit c).getD 0)]
    congr 2
    exact ((Nat.mod_modEq start _).mul_right base).add_right _

/-- The loop of the parsers computes the value of the digits modulo `2 ^ 64`. -/
theorem parseLoop_eq (hnum : num < 2 ^ 64) : parseLoop digit base num text =
    (positional digit base num (text.takeWhile fun c => (digit c).isSome) % 2 ^ 64,
      text.dropWhile fun c => (digit c).isSome) := by
  induction text generalizing num with
  | nil =>
    rw [parseLoop, List.takeWhile_nil, List.dropWhile_nil]
    exact Prod.ext (Nat.mod_eq_of_lt hnum).symm rfl
  | cons c p ih =>
    unfold parseLoop
    cases hdigit : digit c with
    | none =>
      rw [List.takeWhile_cons_of_neg (by simp [hdigit]), List.dropWhile_cons_of_neg
        (by simp [hdigit])]
      exact Prod.ext (Nat.mod_eq_of_lt hnum).symm rfl
    | some d =>
      have hstep := @ih ((num * base + d) % 2 ^ 64) (Nat.mod_lt _ (Nat.two_pow_pos 64))
      rw [List.takeWhile_cons_of_pos (by simp [hdigit]), List.dropWhile_cons_of_pos
        (by simp [hdigit]), positional_cons, hdigit]
      rw [positional_mod] at hstep
      exact hstep

/-- The loop of the parser of a radix reads its accumulator as a signed number. -/
theorem radixLoop_eq {n : ℕ} {start : ℤ} : radixLoop base n start text =
    (if text.takeWhile (fun c => (radixDigit base c).isSome) = [] then start
      else toInt64 (positional (radixDigit base) base n
        (text.takeWhile fun c => (radixDigit base c).isSome) % 2 ^ 64),
      text.dropWhile fun c => (radixDigit base c).isSome) := by
  induction text generalizing n start with
  | nil => rfl
  | cons c p ih =>
    unfold radixLoop
    cases hdigit : radixDigit base c with
    | none =>
      rw [List.takeWhile_cons_of_neg (by simp [hdigit]), List.dropWhile_cons_of_neg
        (by simp [hdigit]), if_pos rfl]
    | some d =>
      have hstep := @ih ((n * base + d) % 2 ^ 64) (toInt64 ((n * base + d) % 2 ^ 64))
      rw [positional_mod] at hstep
      rw [List.takeWhile_cons_of_pos (by simp [hdigit]), List.dropWhile_cons_of_pos
        (by simp [hdigit]), if_neg (List.cons_ne_nil _ _), positional_cons, hdigit]
      refine hstep.trans (Prod.ext ?_ rfl)
      by_cases hlast : p.takeWhile (fun c => (radixDigit base c).isSome) = []
      · simp only [hlast, if_true]
        rfl
      · rw [if_neg hlast]
        rfl

theorem radixParse_eq : radixParse base text =
    (if (Parser.radix base).digits text = [] then -1
      else toInt64 ((Parser.radix base).value text % 2 ^ 64), (Parser.radix base).rest text) :=
  radixLoop_eq

/-! ## Rounding -/

theorem atMost_finite {a b : ℚ} : atMost (.finite a) (.finite b) ↔ a ≤ b := Iff.rfl

/-- Two values that have a number of the form `m * 2 ^ e` between them and a gap are not
rounded to the same double. -/
theorem Rounding.ne_of_gap (r : Rounding) {a b : ℚ} (m₁ e₁ m₂ e₂ : ℕ) (hm₁ : m₁ < 2 ^ 53)
    (he₁ : e₁ ≤ 64) (hm₂ : m₂ < 2 ^ 53) (he₂ : e₂ ≤ 64) (ha : a ≤ (m₁ * 2 ^ e₁ : ℕ))
    (hgap : m₁ * 2 ^ e₁ < m₂ * 2 ^ e₂) (hb : (m₂ * 2 ^ e₂ : ℕ) ≤ b) : r.round a ≠ r.round b := by
  intro heq
  have hlower := r.ordered _ _ ha
  have hupper := r.ordered _ _ hb
  rw [r.dyadic m₁ e₁ hm₁ he₁, heq] at hlower
  rw [r.dyadic m₂ e₂ hm₂ he₂] at hupper
  generalize r.round b = x at hlower hupper
  cases x with
  | nan => exact hlower
  | posInfinity => cases hlower
  | negInfinity => exact hupper
  | finite x =>
    have hle : ((m₂ * 2 ^ e₂ : ℕ) : ℚ) ≤ (m₁ * 2 ^ e₁ : ℕ) :=
      (atMost_finite.mp hupper).trans (atMost_finite.mp hlower)
    have hnat : m₂ * 2 ^ e₂ ≤ m₁ * 2 ^ e₁ := by exact_mod_cast hle
    omega

/-- A value that wraps is not rounded to what it wraps to. -/
theorem Rounding.wrapped_ne (r : Rounding) {v : ℕ} (h : 2 ^ 64 ≤ v) :
    r.round (v % 2 ^ 64 : ℕ) ≠ r.round v := by
  have hlt := Nat.mod_lt v (Nat.two_pow_pos 64)
  by_cases hhalf : v % 2 ^ 64 ≤ 2 ^ 63
  · refine r.ne_of_gap 1 63 1 64 (by omega) (by omega) (by omega) (by omega) ?_ (by omega) ?_
    · exact_mod_cast (by omega : v % 2 ^ 64 ≤ 1 * 2 ^ 63)
    · exact_mod_cast (by omega : 1 * 2 ^ 64 ≤ v)
  · refine r.ne_of_gap 1 64 3 63 (by omega) (by omega) (by omega) (by omega) ?_ (by omega) ?_
    · exact_mod_cast (by omega : v % 2 ^ 64 ≤ 1 * 2 ^ 64)
    · exact_mod_cast (by omega : 3 * 2 ^ 63 ≤ v)

/-- A value from `2 ^ 63` on is not what it is read as in 64 bits with a sign. -/
theorem Rounding.signed_ne (r : Rounding) {v : ℕ} (h : 2 ^ 63 ≤ v) :
    r.round (toInt64 (v % 2 ^ 64) : ℤ) ≠ r.round v := by
  have hlt := Nat.mod_lt v (Nat.two_pow_pos 64)
  unfold toInt64
  split_ifs with hpositive
  · rw [Int.cast_natCast]
    exact r.wrapped_ne (by omega)
  · refine r.ne_of_gap 0 0 1 63 (by omega) (by omega) (by omega) (by omega) ?_ (by omega) ?_
    · exact_mod_cast (by omega : ((v % 2 ^ 64 : ℕ) : ℤ) - 2 ^ 64 ≤ 0)
    · exact_mod_cast (by omega : 1 * 2 ^ 63 ≤ v)

/-! ## The parsers -/

theorem octDigit_eq (c : UInt8) : octDigit c = radixDigit 8 c := by
  have hlt := c.toNat_lt
  unfold octDigit radixDigit letterDigit
  simp only [gt_iff_lt, UInt8.lt_iff_toNat_lt, UInt8.le_iff_toNat_le, UInt8.toNat_sub,
    UInt8.reduceToNat]
  split_ifs <;> first | rfl | omega | exact congrArg some (by omega)

theorem binDigit_eq (c : UInt8) : binDigit c = radixDigit 2 c := by
  have hlt := c.toNat_lt
  unfold binDigit radixDigit letterDigit
  simp only [gt_iff_lt, UInt8.lt_iff_toNat_lt, UInt8.le_iff_toNat_le, UInt8.toNat_sub,
    UInt8.reduceToNat]
  split_ifs <;> first | rfl | omega | exact congrArg some (by omega)

/-- The parser of hexadecimal literals takes ten control characters for digits. -/
theorem charToHex_eq (c : UInt8) : Str.charToHex c =
    if 16 ≤ c ∧ c ≤ 25 then some (c.toNat - 16) else radixDigit 16 c := by
  have hlt := c.toNat_lt
  rw [Str.charToHex_eq]
  unfold Str.hexValue? radixDigit letterDigit
  simp only [UInt8.le_iff_toNat_le, UInt8.reduceToNat]
  split_ifs <;> first | rfl | omega

theorem stray_not_digit {c : UInt8} (h : 16 ≤ c ∧ c ≤ 25) : radixDigit 16 c = none := by
  unfold radixDigit letterDigit
  simp only [UInt8.le_iff_toNat_le, UInt8.reduceToNat] at h ⊢
  split_ifs <;> first | rfl | omega

theorem digits_append_rest (parser : Parser) (text : List UInt8) :
    parser.digits text ++ parser.rest text = text := List.takeWhile_append_dropWhile

theorem isSome_of_mem_digits {parser : Parser} {c : UInt8} (h : c ∈ parser.digits text) :
    (parser.digit c).isSome = true :=
  List.mem_takeWhile_imp (p := fun c => (parser.digit c).isSome) h

theorem positional_congr {digit' : UInt8 → Option ℕ} (h : ∀ c ∈ p, digit c = digit' c)
    (start : ℕ) : positional digit base start p = positional digit' base start p := by
  induction p generalizing start with
  | nil => rfl
  | cons c p ih =>
    rw [positional_cons, positional_cons, h c List.mem_cons_self,
      ih fun d hd => h d (List.mem_cons_of_mem _ hd)]

/-- Parsers whose accumulator is not signed: the digits are the standard ones, and at most the
first character behind them is another digit for the parser. -/
theorem hexParse_eq (h : ∀ c ∈ (Parser.hex.rest text).head?, ¬(16 ≤ c ∧ c ≤ 25)) :
    hexParse text = (Parser.hex.value text % 2 ^ 64, Parser.hex.rest text) := by
  have hsame : ∀ c, ¬(16 ≤ c ∧ c ≤ 25) → Str.charToHex c = Parser.hex.digit c := by
    intro c hc
    rw [charToHex_eq, if_neg hc]
    rfl
  have hdigits : ∀ c ∈ Parser.hex.digits text, ¬(16 ≤ c ∧ c ≤ 25) := by
    intro c hc hstray
    have hsome := isSome_of_mem_digits hc
    rw [Parser.digit, Parser.base, stray_not_digit hstray] at hsome
    cases hsome
  have hall : ∀ c ∈ Parser.hex.digits text, (Str.charToHex c).isSome = true := by
    intro c hc
    rw [hsame c (hdigits c hc)]
    exact isSome_of_mem_digits hc
  have hnone : ∀ c ∈ (Parser.hex.rest text).head?, (Str.charToHex c).isSome = false := by
    intro c hc
    rw [hsame c (h c hc)]
    have hnot := List.head?_dropWhile_not (fun c => (Parser.hex.digit c).isSome) text
    rw [show text.dropWhile (fun c => (Parser.hex.digit c).isSome) = Parser.hex.rest text from rfl,
      Option.mem_def.mp hc] at hnot
    simpa using hnot
  have hrest : ∀ q : List UInt8, (∀ c ∈ q.head?, (Str.charToHex c).isSome = false) →
      q.takeWhile (fun c => (Str.charToHex c).isSome) = [] ∧
        q.dropWhile (fun c => (Str.charToHex c).isSome) = q := by
    intro q hq
    cases q with
    | nil => exact ⟨rfl, rfl⟩
    | cons c q =>
      have hc := hq c rfl
      exact ⟨List.takeWhile_cons_of_neg (by simp [hc]), List.dropWhile_cons_of_neg (by simp [hc])⟩
  obtain ⟨htake, hdrop⟩ := hrest _ hnone
  have hloop := @parseLoop_eq Str.charToHex 16 0 (Parser.hex.digits text ++ Parser.hex.rest text)
    (Nat.two_pow_pos 64)
  rw [List.takeWhile_append_of_pos hall, List.dropWhile_append_of_pos hall, htake, hdrop,
    List.append_nil, digits_append_rest,
    positional_congr fun c hc => hsame c (hdigits c hc)] at hloop
  exact hloop

theorem parseLoop_digits {digit' : UInt8 → Option ℕ} (parser : Parser)
    (h : ∀ c, digit' c = parser.digit c) :
    parseLoop digit' parser.base 0 text = (parser.value text % 2 ^ 64, parser.rest text) := by
  rw [funext h]
  exact parseLoop_eq (Nat.two_pow_pos 64)

/-- A stray character behind hexadecimal digits is consumed. -/
theorem hexParse_rest_ne {c : UInt8} (hc : c ∈ (Parser.hex.rest text).head?)
    (hstray : 16 ≤ c ∧ c ≤ 25) : (hexParse text).2 ≠ Parser.hex.rest text := by
  have hall : ∀ c ∈ Parser.hex.digits text, (Str.charToHex c).isSome = true := by
    intro c hc
    rw [charToHex_eq]
    split_ifs
    · rfl
    · exact isSome_of_mem_digits hc
  obtain ⟨q, hq⟩ : ∃ q, Parser.hex.rest text = c :: q := by
    cases hrest : Parser.hex.rest text with
    | nil => simp [hrest] at hc
    | cons d q =>
      rw [hrest] at hc
      exact ⟨q, by rw [Option.some.inj hc]⟩
  have hloop := @parseLoop_eq Str.charToHex 16 0 (Parser.hex.digits text ++ Parser.hex.rest text)
    (Nat.two_pow_pos 64)
  have hsome : (Str.charToHex c).isSome = true := by
    rw [charToHex_eq, if_pos hstray]
    rfl
  have hdrop : (c :: q).dropWhile (fun c => (Str.charToHex c).isSome) =
      q.dropWhile fun c => (Str.charToHex c).isSome := List.dropWhile_cons_of_pos hsome
  rw [List.dropWhile_append_of_pos hall, digits_append_rest, hq, hdrop] at hloop
  have hsecond : (hexParse text).2 = q.dropWhile fun c => (Str.charToHex c).isSome :=
    congrArg Prod.snd hloop
  rw [hsecond, hq]
  intro heq
  have hle : (q.dropWhile fun c => (Str.charToHex c).isSome).length ≤ q.length :=
    (List.dropWhile_suffix _).length_le
  rw [heq, List.length_cons] at hle
  omega

/-! ## When the parsers do not wrap -/

theorem value_of_digits_nil {parser : Parser} (h : parser.digits text = []) :
    parser.value text = 0 := by
  rw [Parser.value, h]
  rfl

/-- The parser of a radix reads a text as it should if the value is below `2 ^ 63`. -/
theorem reads_radix_iff :
    Reads r (.radix base) text ↔ (Parser.radix base).value text < 2 ^ 63 := by
  have hparse : (Parser.radix base).parse text = _ := radixParse_eq
  constructor
  · intro h
    by_cases hnil : (Parser.radix base).digits text = []
    · rw [value_of_digits_nil hnil]
      exact Nat.two_pow_pos 63
    · by_contra hlarge
      have hvalue := h.value fun b heq => Parser.radix.inj heq ▸ hnil
      rw [hparse, if_neg hnil] at hvalue
      exact r.signed_ne (not_lt.mp hlarge) hvalue
  · intro h
    have hint : toInt64 ((Parser.radix base).value text % 2 ^ 64) =
        (Parser.radix base).value text := by
      rw [Nat.mod_eq_of_lt (by omega), toInt64, if_pos h]
    refine ⟨by rw [hparse], fun _ _ => ?_, fun hdigits => ?_⟩
    · rw [hparse]
      by_cases hnil : (Parser.radix base).digits text = []
      · exact iff_of_true (if_pos hnil) hnil
      · rw [if_neg hnil, hint]
        exact iff_of_false (by omega) hnil
    · rw [hparse, if_neg (hdigits base rfl), hint, Int.cast_natCast]

/-- The other parsers read a text as they should if the value is below `2 ^ 64`. -/
theorem reads_unsigned_iff {parser : Parser} (hparser : ∀ radix, parser ≠ .radix radix)
    (hparse : parser.parse text = (((parser.value text % 2 ^ 64 : ℕ) : ℤ), parser.rest text)) :
    Reads r parser text ↔ parser.value text < 2 ^ 64 := by
  constructor
  · intro h
    by_contra hlarge
    have hvalue := h.value fun _ heq => absurd heq (hparser _)
    rw [hparse, Int.cast_natCast] at hvalue
    exact r.wrapped_ne (not_lt.mp hlarge) hvalue
  · intro h
    refine ⟨by rw [hparse], fun _ heq => absurd heq (hparser _), fun _ => ?_⟩
    rw [hparse, Nat.mod_eq_of_lt h, Int.cast_natCast]

theorem reads_iff (r : Rounding) (parser : Parser) (text : List UInt8) :
    Reads r parser text ↔ Small parser text := by
  cases parser with
  | radix base => exact reads_radix_iff
  | hex =>
    by_cases hstray : ∀ c ∈ (Parser.hex.rest text).head?, ¬(16 ≤ c ∧ c ≤ 25)
    · refine (reads_unsigned_iff (by rintro - ⟨⟩) ?_).trans (and_iff_left hstray).symm
      rw [Parser.parse, hexParse_eq hstray]
    · refine iff_of_false (fun h => ?_) fun h => hstray h.2
      simp only [not_forall, not_not] at hstray
      obtain ⟨c, hc, hstray⟩ := hstray
      exact hexParse_rest_ne hc hstray h.rest
  | oct =>
    refine reads_unsigned_iff (by rintro - ⟨⟩) ?_
    have hloop : octParse text = _ := parseLoop_digits .oct octDigit_eq
    rw [Parser.parse, hloop]
  | bin =>
    refine reads_unsigned_iff (by rintro - ⟨⟩) ?_
    have hloop : binParse text = _ := parseLoop_digits .bin binDigit_eq
    rw [Parser.parse, hloop]

theorem monotone_iff (r : Rounding) (parser : Parser) (first second : List UInt8) :
    Monotone r parser first second ↔ Small parser first ∧ Small parser second := by
  rw [← reads_iff r, ← reads_iff r]
  constructor
  · intro h
    exact ⟨h.readsFirst, h.readsSecond⟩
  · rintro ⟨hfirst, hsecond⟩
    refine ⟨hfirst, hsecond, fun hne hne' hle => ?_⟩
    rw [hfirst.value fun _ _ => hne, hsecond.value fun _ _ => hne']
    exact r.ordered _ _ (by exact_mod_cast hle)

/-! ## `parseInt` -/

theorem atMost_signed {x y : Number} (h : atMost x y) :
    atMost (Json.signed true y) (Json.signed true x) := by
  cases x <;> cases y <;> simp_all [atMost, Json.signed]

theorem signed_injective {minus : Bool} {x y : Number}
    (h : Json.signed minus x = Json.signed minus y) : x = y := by
  cases minus with
  | false => exact h
  | true => cases x <;> cases y <;> simp_all [Json.signed]

theorem Rounding.signed_ne_nan (r : Rounding) (minus : Bool) (q : ℚ) :
    Json.signed minus (r.round q) ≠ .nan := by
  have hordered := r.ordered q q le_rfl
  intro h
  have hnan : r.round q = .nan := signed_injective (h.trans (by cases minus <;> rfl))
  rw [hnan] at hordered
  exact hordered

/-- `parseInt` returns what it should if the value is below `2 ^ 63`. -/
theorem parseInt_iff (r : Rounding) (radix : Option ℤ) (string : List UInt8) :
    parseInt r string radix = parsedInt r string radix ↔ SmallInt radix string := by
  unfold parseInt parsedInt SmallInt
  cases htext : parseIntText string radix with
  | none => exact iff_of_true rfl (by rintro - - - ⟨⟩)
  | some parsed =>
    obtain ⟨minus, base, p⟩ := parsed
    have hforall : (∀ minus' base' p', some (minus, base, p) = some (minus', base', p') →
        (Parser.radix base').value p' < 2 ^ 63) ↔ (Parser.radix base).value p < 2 ^ 63 := by
      refine ⟨fun h => h _ _ _ rfl, fun h minus' base' p' heq => ?_⟩
      obtain ⟨rfl, rfl, rfl⟩ : minus = minus' ∧ base = base' ∧ p = p' := by simpa using heq
      exact h
    rw [hforall]
    simp only [radixParse_eq]
    by_cases hnil : (Parser.radix base).digits p = []
    · rw [if_pos hnil, if_pos hnil, if_neg (by omega), value_of_digits_nil hnil]
      exact iff_of_true rfl (Nat.two_pow_pos 63)
    · rw [if_neg hnil, if_neg hnil]
      constructor
      · intro h
        by_contra hlarge
        split_ifs at h with hpositive
        · exact r.signed_ne (not_lt.mp hlarge) (signed_injective h)
        · exact r.signed_ne_nan minus _ h.symm
      · intro h
        have hint : toInt64 ((Parser.radix base).value p % 2 ^ 64) =
            (Parser.radix base).value p := by
          rw [Nat.mod_eq_of_lt (by omega), toInt64, if_pos h]
        rw [hint, if_pos (by omega), Int.cast_natCast]

/-- More digits stand for no smaller number. -/
theorem value_mono {parser : Parser} (h : parser.digits p <+: parser.digits q)
    (hbase : 1 ≤ parser.base) : parser.value p ≤ parser.value q := by
  obtain ⟨more, hmore⟩ := h
  have hstart : ∀ (l : List UInt8) (start : ℕ),
      start ≤ positional parser.digit parser.base start l := by
    intro l
    induction l with
    | nil => exact fun start => le_rfl
    | cons c l ih =>
      intro start
      have hmul := Nat.mul_le_mul_left start hbase
      exact (by omega : start ≤ start * parser.base + (parser.digit c).getD 0).trans (ih _)
  rw [Parser.value, Parser.value, ← hmore, positional, positional, List.foldl_append]
  exact hstart more _

theorem parseIntText_base {minus : Bool} {string : List UInt8} {radix : Option ℤ}
    (h : parseIntText string radix = some (minus, base, p)) : 1 ≤ base := by
  unfold parseIntText at h
  simp only at h
  split_ifs at h <;> simp only [Option.some.injEq, Prod.mk.injEq] at h <;> omega

theorem grows_iff (r : Rounding) (radix : Option ℤ) (first second : List UInt8) :
    Grows r radix first second ↔ SmallInt radix first ∧ SmallInt radix second := by
  rw [← parseInt_iff r, ← parseInt_iff r]
  constructor
  · intro h
    exact ⟨h.exactFirst, h.exactSecond⟩
  · rintro ⟨hfirst, hsecond⟩
    refine ⟨hfirst, hsecond, fun minus base p q hp hq hle hne => ?_⟩
    have hne' : (Parser.radix base).digits q ≠ [] := by
      intro hnil
      rw [hnil] at hle
      exact hne (List.prefix_nil.mp hle)
    have hvalue := value_mono hle (parseIntText_base hp)
    have hordered := r.ordered _ _ (Nat.cast_le.mpr hvalue)
    rw [hfirst, hsecond, parsedInt, parsedInt, hp, hq]
    simp only [if_neg hne, if_neg hne']
    cases minus with
    | false => exact hordered
    | true => exact atMost_signed hordered

/-- The parsers of integers read two texts as they should, and with them `parseInt`, exactly if
no value needs more bits than its accumulator has and no stray character follows hexadecimal
digits. -/
theorem parsers_read_iff (r : Rounding) :
    (∀ parser first second, Monotone r parser first second ↔
      Small parser first ∧ Small parser second) ∧
    (∀ radix first second, Grows r radix first second ↔
      SmallInt radix first ∧ SmallInt radix second) :=
  ⟨monotone_iff r, grows_iff r⟩

/-- Doubles that are all integers. -/
def Rounding.floored : Rounding where
  toRounding := Decimal.Rounding.floored
  ordered a b h := by
    have hfloor : ((⌊a⌋ : ℤ) : ℚ) ≤ ⌊b⌋ := by exact_mod_cast Int.floor_mono h
    exact hfloor
  dyadic m e _ _ := congrArg Number.finite (by exact_mod_cast Int.floor_natCast (m * 2 ^ e))

/-- The digits of `9223372036854775808`, which is `2 ^ 63`. -/
def large : List UInt8 :=
  [57, 50, 50, 51, 51, 55, 50, 48, 51, 54, 56, 53, 52, 55, 55, 53, 56, 48, 56]

/-- `parseInt("9223372036854775808")` is a NaN: its digits are read as a negative number. -/
theorem parseInt_wraps : ¬∀ (r : Rounding) (radix : Option ℤ) (first second : List UInt8),
    Grows r radix first second := by
  intro h
  have hsmall := (parseInt_iff .floored none large).mp (h .floored none large large).exactFirst
  have htext : parseIntText large none = some (false, 10, large) := by decide
  have hvalue : (Parser.radix 10).value large = 2 ^ 63 := by decide
  have hlt := hsmall false 10 large htext
  omega

end Njs.Integers
