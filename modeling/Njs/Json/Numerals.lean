import Njs.Json.Parse

/-!
# Numbers of JSON texts

`njs_strtod` scans the numbers that have a digit before their exponent, and no more of the text
if another value, a bracket, a comma or a space follows.
-/

namespace Njs.Json

variable {ctx : Context} {p q digits : List UInt8} {n : Numeral} {c : UInt8}

/-- Nothing of the text that follows belongs to a number. -/
def Ends (q : List UInt8) : Prop :=
  ∀ c ∈ q.head?, isDigit c = false ∧ c ≠ 46 ∧ c ≠ 101 ∧ c ≠ 69

/-- The digits that `njs_strtod` keeps. -/
def Numeral.kept (n : Numeral) : List UInt8 :=
  n.whole.take 128 ++ (n.fraction.getD []).take (128 - (n.whole.take 128).length)

/-- The value of the digits of an exponent. -/
def exponentDigits : List UInt8 → ℕ
  | [] => 0
  | c :: digits => (exponentLoop (c - 48).toNat digits).1

/-- The value of an exponent. -/
def exponentValue : Option (UInt8 × Option UInt8 × List UInt8) → ℤ
  | none => 0
  | some (_, sign, digits) =>
    if sign = some 45 then -(exponentDigits digits : ℤ) else exponentDigits digits

/-- The exponent of ten of the last digit that is kept. -/
def Numeral.power (n : Numeral) : ℤ :=
  (n.whole.length - (n.whole.take 128).length : ℕ) -
    ((n.fraction.getD []).take (128 - (n.whole.take 128).length)).length +
    exponentValue n.exponent

/-! ## Digits -/

theorem Ends.not_digit (h : Ends q) : ∀ c ∈ q.head?, isDigit c = false := fun c hc => (h c hc).1

theorem span_digits (hdigits : ∀ c ∈ digits, isDigit c = true)
    (hq : ∀ c ∈ q.head?, isDigit c = false) : (digits ++ q).span isDigit = (digits, q) := by
  have hdrop : q.dropWhile isDigit = q := by
    cases q with
    | nil => rfl
    | cons c q => rw [List.dropWhile_cons_of_neg (by simp [hq c rfl])]
  have htake : q.takeWhile isDigit = [] := by
    cases q with
    | nil => rfl
    | cons c q => rw [List.takeWhile_cons_of_neg (by simp [hq c rfl])]
  rw [List.span_eq_takeWhile_dropWhile, List.takeWhile_append_of_pos hdigits,
    List.dropWhile_append_of_pos hdigits, hdrop, htake, List.append_nil]

theorem span_cases (p : List UInt8) : ∃ digits q, p = digits ++ q ∧
    (∀ c ∈ digits, isDigit c = true) ∧ (∀ c ∈ q.head?, isDigit c = false) ∧
    p.span isDigit = (digits, q) := by
  refine ⟨p.takeWhile isDigit, p.dropWhile isDigit, (List.takeWhile_append_dropWhile).symm,
    fun c hc => List.mem_takeWhile_imp hc, fun c hc => ?_,
    List.span_eq_takeWhile_dropWhile isDigit p⟩
  have := List.head?_dropWhile_not isDigit p
  simpa [Option.mem_def.mp hc] using this

theorem exponentLoop_append (exp : ℕ) (hdigits : ∀ c ∈ digits, isDigit c = true)
    (hq : ∀ c ∈ q.head?, isDigit c = false) :
    exponentLoop exp (digits ++ q) = ((exponentLoop exp digits).1, q) := by
  induction digits generalizing exp with
  | nil =>
    cases q with
    | nil => rfl
    | cons c q => simp [exponentLoop, hq c rfl]
  | cons c digits ih =>
    have hc := hdigits c List.mem_cons_self
    simp only [List.cons_append, exponentLoop, hc, if_true]
    exact ih _ fun d hd => hdigits d (List.mem_cons_of_mem _ hd)

/-! ## The parts of a number -/

theorem scanFraction_text {fraction : Option (List UInt8)}
    (hdigits : ∀ digits ∈ fraction, ∀ c ∈ digits, isDigit c = true)
    (hq : ∀ c ∈ q.head?, isDigit c = false ∧ c ≠ 46) :
    scanFraction (fractionText fraction ++ q) = (fraction.getD [], q) := by
  cases fraction with
  | some digits =>
    exact span_digits (hdigits digits rfl) fun c hc => (hq c hc).1
  | none =>
    cases q with
    | nil => rfl
    | cons c q =>
      have hne := (hq c rfl).2
      simp only [fractionText, List.nil_append, Option.getD_none]
      unfold scanFraction
      split
      · exact absurd (List.cons.inj ‹_›).1 hne
      · rfl

theorem scanFraction_cases (p : List UInt8) : ∃ fraction q, p = fractionText fraction ++ q ∧
    (∀ digits ∈ fraction, ∀ c ∈ digits, isDigit c = true) ∧
    scanFraction p = (fraction.getD [], q) := by
  unfold scanFraction
  split
  · rename_i p
    obtain ⟨digits, q, rfl, hdigits, -, hspan⟩ := span_cases p
    exact ⟨some digits, q, rfl, fun _ h => Option.some.inj h ▸ hdigits, hspan⟩
  · exact ⟨none, p, rfl, nofun, rfl⟩

theorem scanDigitsOfExponent_text (minus : Bool) (hne : digits ≠ [])
    (hdigits : ∀ c ∈ digits, isDigit c = true) (hq : ∀ c ∈ q.head?, isDigit c = false) :
    scanDigitsOfExponent minus p (digits ++ q) =
      (if minus then -(exponentDigits digits : ℤ) else exponentDigits digits, q) := by
  cases digits with
  | nil => exact absurd rfl hne
  | cons c digits =>
    have hloop := exponentLoop_append (c - 48).toNat
      (fun d hd => hdigits d (List.mem_cons_of_mem _ hd)) hq
    simp only [List.cons_append, scanDigitsOfExponent, hdigits c List.mem_cons_self, if_true,
      hloop, exponentDigits]

theorem scanDigitsOfExponent_cases (minus : Bool) (p e : List UInt8) :
    (∃ digits q, e = digits ++ q ∧ digits ≠ [] ∧ (∀ c ∈ digits, isDigit c = true) ∧
      scanDigitsOfExponent minus p e =
        (if minus then -(exponentDigits digits : ℤ) else exponentDigits digits, q)) ∨
    scanDigitsOfExponent minus p e = (0, p) := by
  obtain ⟨digits, q, rfl, hdigits, hq, -⟩ := span_cases e
  by_cases hne : digits = []
  · subst hne
    refine Or.inr ?_
    cases q with
    | nil => rfl
    | cons c q => simp [scanDigitsOfExponent, hq c rfl]
  · exact Or.inl ⟨digits, q, rfl, hne, hdigits, scanDigitsOfExponent_text minus hne hdigits hq⟩

/-- The character that begins an exponent. -/
theorem not_digit_of_exponent (h : c = 101 ∨ c = 69) : isDigit c = false ∧ c ≠ 46 := by
  rcases h with rfl | rfl <;> decide

theorem scanExponent_some {exponent : UInt8 × Option UInt8 × List UInt8}
    (hexponent : isExponent exponent) (hq : ∀ c ∈ q.head?, isDigit c = false) :
    scanExponent (exponentText (some exponent) ++ q) = (exponentValue (some exponent), q) := by
  obtain ⟨e, sign, digits⟩ := exponent
  obtain ⟨he, hsign, hne, hdigits⟩ := hexponent
  have htext := fun minus p => scanDigitsOfExponent_text (p := p) minus hne hdigits hq
  simp only [exponentText, List.cons_append, scanExponent, if_pos he, exponentValue]
  cases sign with
  | none =>
    obtain ⟨d, digits, rfl⟩ := List.exists_cons_of_ne_nil hne
    have hd := hdigits d List.mem_cons_self
    simp only [Option.toList_none, List.nil_append, reduceCtorEq, if_false]
    split
    · rename_i heq
      rw [(List.cons.inj heq).1] at hd
      cases hd
    · rename_i heq
      rw [(List.cons.inj heq).1] at hd
      cases hd
    · exact (htext false _).trans (by simp)
  | some sign =>
    obtain ⟨d, digits, rfl⟩ := List.exists_cons_of_ne_nil hne
    rcases hsign sign rfl with rfl | rfl
    · simp only [Option.toList_some, List.cons_append, if_true]
      exact (htext true _).trans (by simp)
    · simp only [Option.toList_some, List.cons_append, Option.some.injEq]
      exact (htext false _).trans (by simp)

theorem scanExponent_text {exponent : Option (UInt8 × Option UInt8 × List UInt8)}
    (hexponent : ∀ e ∈ exponent, isExponent e) (hq : Ends q) :
    scanExponent (exponentText exponent ++ q) = (exponentValue exponent, q) := by
  cases exponent with
  | none =>
    cases q with
    | nil => rfl
    | cons c q =>
      have hne : ¬(c = 101 ∨ c = 69) := not_or.mpr (hq c rfl).2.2
      simp only [exponentText, List.nil_append, scanExponent, if_neg hne, exponentValue]
  | some exponent => exact scanExponent_some (hexponent _ rfl) hq.not_digit

theorem scanExponent_cases (p : List UInt8) : ∃ exponent q, p = exponentText exponent ++ q ∧
    (∀ e ∈ exponent, isExponent e) ∧ scanExponent p = (exponentValue exponent, q) := by
  have hnone : ∃ exponent q, p = exponentText exponent ++ q ∧ (∀ e ∈ exponent, isExponent e) ∧
      ((0 : ℤ), p) = (exponentValue exponent, q) := ⟨none, p, rfl, nofun, rfl⟩
  have hsome : ∀ (c : UInt8) (minus : Bool) (sign : Option UInt8) (e : List UInt8),
      (c = 101 ∨ c = 69) → (∀ s ∈ sign, s = 45 ∨ s = 43) → (minus = true ↔ sign = some 45) →
      p = c :: (sign.toList ++ e) →
      ∃ exponent q, p = exponentText exponent ++ q ∧ (∀ e ∈ exponent, isExponent e) ∧
        scanDigitsOfExponent minus p e = (exponentValue exponent, q) := by
    intro c minus sign e hc hsign hminus hp
    rcases scanDigitsOfExponent_cases minus p e with ⟨digits, q, rfl, hne, hdigits, hscan⟩ | hscan
    · refine ⟨some (c, sign, digits), q, ?_, ?_, ?_⟩
      · rw [hp]
        simp only [exponentText, List.cons_append, List.append_assoc]
      · rintro - ⟨⟩
        exact ⟨hc, hsign, hne, hdigits⟩
      · rw [hscan]
        simp only [exponentValue, ← hminus]
    · rw [hscan]
      exact hnone
  unfold scanExponent
  split
  · rename_i c e
    split_ifs with hc
    · split
      · rename_i d e
        exact hsome c true (some 45) (d :: e) hc (by simp) (by simp) rfl
      · rename_i d e
        exact hsome c false (some 43) (d :: e) hc (by simp) (by simp) rfl
      · exact hsome c false none e hc nofun (by simp) rfl
    · exact hnone
  · exact hnone

/-! ## Numbers -/

theorem kept_isEmpty (n : Numeral) :
    n.kept.isEmpty = true ↔ n.whole ++ n.fraction.getD [] = [] := by
  unfold Numeral.kept
  rw [List.isEmpty_iff, List.append_eq_nil_iff, List.append_eq_nil_iff]
  constructor
  · rintro ⟨hwhole, hfraction⟩
    have hwhole' : n.whole = [] := by simpa using hwhole
    rw [hwhole'] at hfraction
    exact ⟨hwhole', by simpa using hfraction⟩
  · rintro ⟨hwhole, hfraction⟩
    rw [hwhole, hfraction]
    exact ⟨rfl, rfl⟩

/-- The scan of a text whose parts are known. -/
theorem scanLiteral_parts {p₁ p₂ : List UInt8} (hwhole : p.span isDigit = (n.whole, p₁))
    (hfraction : scanFraction p₁ = (n.fraction.getD [], p₂))
    (hexponent : scanExponent p₂ = (exponentValue n.exponent, q)) :
    scanLiteral p = if n.whole ++ n.fraction.getD [] = [] then none
      else some { digits := n.kept, exponent := n.power, rest := q } := by
  have hempty := kept_isEmpty n
  unfold Numeral.kept at hempty
  unfold scanLiteral
  simp only [hwhole, hfraction, hexponent]
  by_cases h : n.whole ++ n.fraction.getD [] = []
  · rw [if_pos h, if_pos (hempty.mpr h)]
  · rw [if_neg h, if_neg (fun hkept => h (hempty.mp hkept))]
    rfl

theorem Ends.nil : Ends [] := nofun

/-- A number is scanned up to its end. -/
theorem scanLiteral_text (h : n.Scanned) (hq : Ends q) :
    scanLiteral (n.text ++ q) = some { digits := n.kept, exponent := n.power, rest := q } := by
  have hbehind : ∀ c ∈ (exponentText n.exponent ++ q).head?, isDigit c = false ∧ c ≠ 46 := by
    intro c hc
    cases hexponent : n.exponent with
    | none =>
      rw [hexponent] at hc
      exact ⟨(hq c hc).1, (hq c hc).2.1⟩
    | some exponent =>
      rw [hexponent] at hc
      obtain ⟨e, sign, digits⟩ := exponent
      obtain rfl : e = c := Option.some.inj hc
      exact not_digit_of_exponent (h.exponent _ hexponent).1
  have hbefore : ∀ c ∈ (fractionText n.fraction ++ (exponentText n.exponent ++ q)).head?,
      isDigit c = false := by
    intro c hc
    cases hfraction : n.fraction with
    | none =>
      rw [hfraction] at hc
      exact (hbehind c hc).1
    | some digits =>
      rw [hfraction] at hc
      obtain rfl : 46 = c := Option.some.inj hc
      rfl
  have hwhole := span_digits h.whole hbefore
  have hfraction := scanFraction_text h.fraction hbehind
  have hexponent := scanExponent_text h.exponent hq
  have htext : n.text ++ q =
      n.whole ++ (fractionText n.fraction ++ (exponentText n.exponent ++ q)) := by
    simp only [Numeral.text, List.append_assoc]
  rw [htext, scanLiteral_parts hwhole hfraction hexponent, if_neg h.digits]

/-- What is scanned is a number. -/
theorem scanLiteral_cases (p : List UInt8) :
    (∃ (n : Numeral) (q : List UInt8), n.Scanned ∧ p = n.text ++ q ∧
      scanLiteral p = some { digits := n.kept, exponent := n.power, rest := q }) ∨
    scanLiteral p = none := by
  obtain ⟨whole, p₁, rfl, hdigits, -, hwhole⟩ := span_cases p
  obtain ⟨fraction, p₂, rfl, hfractions, hfraction⟩ := scanFraction_cases p₁
  obtain ⟨exponent, q, rfl, hexponents, hexponent⟩ := scanExponent_cases p₂
  have hparts := scanLiteral_parts (n := ⟨whole, fraction, exponent⟩) hwhole hfraction hexponent
  by_cases hempty : whole ++ fraction.getD [] = []
  · rw [if_pos hempty] at hparts
    exact Or.inr hparts
  · rw [if_neg hempty] at hparts
    refine Or.inl ⟨⟨whole, fraction, exponent⟩, q, ⟨hdigits, hfractions, hexponents, hempty⟩, ?_,
      hparts⟩
    simp only [Numeral.text, List.append_assoc]

/-- The value of a number does not depend on what follows. -/
theorem parse_text (strtod : Strtod) (h : n.Scanned) (hq : Ends q) :
    strtod.parse (n.text ++ q) = ((strtod.parse n.text).1, q) := by
  have hnil := scanLiteral_text h .nil
  rw [List.append_nil] at hnil
  simp only [Strtod.parse, scanLiteral_text h hq, hnil]

theorem Numeral.Scanned.text_ne_nil (h : n.Scanned) : n.text ≠ [] := by
  intro hnil
  have hnone := scanLiteral_text h .nil
  rw [List.append_nil, hnil] at hnone
  cases hnone

/-- A number is parsed, behind its sign, or there is none. -/
theorem parseDigits_cases (ctx : Context) (minus : Bool) (p : List UInt8) :
    (∃ (n : Numeral) (q : List UInt8), n.Scanned ∧ p = n.text ++ q ∧ parseDigits ctx minus p =
      .ok (.number (signed minus (ctx.strtod.parse n.text).1), q)) ∨
    ((∃ message position, parseDigits ctx minus p = .error (.syntaxError message position)) ∧
      ∀ (n : Numeral) (q : List UInt8), n.Scanned → Ends q → p ≠ n.text ++ q) := by
  rcases scanLiteral_cases p with ⟨n, q, hn, rfl, hscan⟩ | hnone
  · refine Or.inl ⟨n, q, hn, rfl, ?_⟩
    have hnil := scanLiteral_text hn .nil
    rw [List.append_nil] at hnil
    have hne : q ≠ n.text ++ q := by
      intro heq
      have hlength := congrArg List.length heq
      rw [List.length_append] at hlength
      have := List.length_pos_iff.mpr hn.text_ne_nil
      omega
    simp only [parseDigits, Strtod.parse, hscan, hnil, ne_eq, hne, not_false_eq_true, if_true]
  · refine Or.inr ⟨?_, fun n q hn hq heq => ?_⟩
    · simp only [parseDigits, Strtod.parse, hnone, ne_eq, not_true_eq_false, if_false]
      exact ⟨_, _, rfl⟩
    · rw [heq, scanLiteral_text hn hq] at hnone
      cases hnone

theorem toNat_of_isDigit (h : isDigit c = true) : 48 ≤ c.toNat ∧ c.toNat ≤ 57 := by
  unfold isDigit at h
  have hle : (c - 48).toNat ≤ 9 := UInt8.le_iff_toNat_le.mp (of_decide_eq_true h)
  rw [UInt8.toNat_sub] at hle
  have := c.toNat_lt
  simp only [UInt8.reduceToNat] at hle
  omega

/-- The first character of a number without a sign. -/
theorem Numeral.Scanned.head (h : n.Scanned) :
    ∃ c p, n.text = c :: p ∧ 46 ≤ c.toNat ∧ c.toNat ≤ 57 := by
  unfold Numeral.text
  cases hwhole : n.whole with
  | cons c whole =>
    have hc := toNat_of_isDigit (h.whole c (hwhole ▸ List.mem_cons_self))
    exact ⟨c, _, rfl, by omega, hc.2⟩
  | nil =>
    cases hfraction : n.fraction with
    | some digits => exact ⟨46, _, rfl, by decide, by decide⟩
    | none =>
      have hdigits := h.digits
      rw [hwhole, hfraction] at hdigits
      exact absurd rfl hdigits

end Njs.Json
