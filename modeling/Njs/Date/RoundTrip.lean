import Njs.Date.Text

/-!
# Reading the texts of dates

The text of each format reads back as the time that it was written for, if its year has the
four digits that the reader takes and its offset is not the one that stands for an error.
-/

namespace Njs.Date

variable {zone time : ℤ} {p rest : List UInt8} {tm : Fields}

/-! ## Numbers -/

theorem numberLoop_append {l : List UInt8} (h : ∀ c ∈ l, isDigit c = true) (n : ℕ)
    (rest : List UInt8) : numberLoop l.length n (l ++ rest) =
      some (l.foldl (fun n c => 10 * n + (c - 48).toNat) n, rest) := by
  induction l generalizing n with
  | nil => rfl
  | cons c l ih =>
    have hc := h c List.mem_cons_self
    simp only [List.length_cons, List.cons_append, numberLoop, hc, if_true, List.foldl_cons]
    rw [ih (fun c hc => h c (List.mem_cons_of_mem _ hc)), Nat.mul_comm n 10]

/-- A number of some digits is read, whatever follows it. -/
theorem numberParse_append {l : List UInt8} (hne : l ≠ []) (h : ∀ c ∈ l, isDigit c = true)
    (rest : List UInt8) : numberParse l.length (l ++ rest) = some (digitsValue l, rest) := by
  unfold numberParse
  rw [if_neg (by simpa using hne), numberLoop_append h]
  rfl

theorem numberLoop_lt {size n v : ℕ} {r : List UInt8} (h : numberLoop size n p = some (v, r)) :
    v < (n + 1) * 10 ^ size := by
  induction size generalizing n p with
  | zero =>
    cases h
    omega
  | succ size ih =>
    cases p with
    | nil => cases h
    | cons c p =>
      unfold numberLoop at h
      by_cases hc : isDigit c = true
      · have hdigit : (c - 48).toNat ≤ 9 := by
          simp only [isDigit, decide_eq_true_eq] at hc
          exact hc
        simp only [hc, if_true] at h
        have hlt := ih h
        rw [Nat.pow_succ]
        nlinarith [Nat.pow_pos (n := size) (show 0 < 10 by decide)]
      · simp only [hc, Bool.false_eq_true, if_false] at h
        cases h

theorem numberParse_lt {size v : ℕ} {r : List UInt8} (h : numberParse size p = some (v, r)) :
    v < 10 ^ size := by
  unfold numberParse at h
  split_ifs at h
  have hlt := numberLoop_lt h
  omega

/-- No number begins with a byte that is no digit. -/
theorem numberParse_cons {c : UInt8} (h : isDigit c = false) (size : ℕ) :
    numberParse size (c :: p) = none := by
  unfold numberParse
  split_ifs with hsize
  · rfl
  · obtain ⟨k, rfl⟩ : ∃ k, size = k + 1 := ⟨size - 1, by omega⟩
    simp only [numberLoop, h, Bool.false_eq_true, if_false]

theorem foldl_digits (l : List UInt8) (n : ℕ) :
    l.foldl (fun n c => 10 * n + (c - 48).toNat) n = n * 10 ^ l.length + digitsValue l := by
  unfold digitsValue
  induction l generalizing n with
  | nil => simp
  | cons c l ih =>
    rw [List.foldl_cons, List.foldl_cons, ih, ih (10 * 0 + (c - 48).toNat), List.length_cons,
      Nat.pow_succ]
    ring

theorem digitsValue_append (l l' : List UInt8) :
    digitsValue (l ++ l') = digitsValue l * 10 ^ l'.length + digitsValue l' := by
  have happend : digitsValue (l ++ l') =
      l'.foldl (fun n c => 10 * n + (c - 48).toNat) (digitsValue l) := List.foldl_append
  rw [happend, foldl_digits]

theorem digitsValue_lt {l : List UInt8} (h : ∀ c ∈ l, isDigit c = true) :
    digitsValue l < 10 ^ l.length := by
  induction l with
  | nil => decide
  | cons c l ih =>
    have hc : (c - 48).toNat ≤ 9 := by
      have hdigit := h c List.mem_cons_self
      simp only [isDigit, decide_eq_true_eq] at hdigit
      exact hdigit
    have hrest := ih fun c hc => h c (List.mem_cons_of_mem _ hc)
    have hcons : digitsValue (c :: l) = (c - 48).toNat * 10 ^ l.length + digitsValue l := by
      have happend := digitsValue_append [c] l
      simpa [digitsValue] using happend
    rw [hcons, List.length_cons, Nat.pow_succ]
    nlinarith

theorem padded_isDigit (w n : ℕ) : ∀ c ∈ padded w n, isDigit c = true := by
  intro c hc
  rcases List.mem_append.mp hc with hc | hc
  · rw [List.eq_of_mem_replicate hc]
    rfl
  · exact decimal_isDigit n c hc

theorem digitsValue_padded (w n : ℕ) : digitsValue (padded w n) = n := by
  unfold padded
  rw [digitsValue_append, digitsValue_decimal]
  have hzeros : ∀ k, digitsValue (List.replicate k 48) = 0 := fun k => by
    induction k with
    | zero => rfl
    | succ k ih =>
      rw [List.replicate_succ', digitsValue_append, ih]
      rfl
  rw [hzeros, Nat.zero_mul, Nat.zero_add]

theorem length_decimal {w n : ℕ} (hw : 0 < w) : (decimal n).length ≤ w ↔ n < 10 ^ w := by
  unfold decimal
  split_ifs with hzero
  · subst hzero
    simp
    omega
  · rw [List.length_map, List.length_reverse, Nat.digits_length_le_iff (by omega)]

theorem length_padded {w n : ℕ} (hw : 0 < w) (h : n < 10 ^ w) : (padded w n).length = w := by
  have hlength := (length_decimal hw).mpr h
  unfold padded
  rw [List.length_append, List.length_replicate]
  omega

/-- A number that has the digits that are read is read as it was written. -/
theorem numberParse_padded {w n : ℕ} (hw : 0 < w) (h : n < 10 ^ w) (rest : List UInt8) :
    numberParse w (padded w n ++ rest) = some (n, rest) := by
  have hlength := length_padded hw h
  have hne : padded w n ≠ [] := by
    rw [← List.length_pos_iff, hlength]
    exact hw
  have hparse := numberParse_append hne (padded_isDigit w n) rest
  rwa [hlength, digitsValue_padded] at hparse

/-- A number that has more digits than are read leaves some of them. -/
theorem numberParse_long {w n : ℕ} (hw : 0 < w) (h : 10 ^ w ≤ n) (rest : List UInt8) :
    ∃ n' c q, numberParse w (padded w n ++ rest) = some (n', c :: (q ++ rest)) ∧
      isDigit c = true ∧ 10 * n' ≤ n := by
  have hlong : w < (decimal n).length := by
    by_contra hshort
    have hless : n < 10 ^ w := (length_decimal hw).mp (by omega)
    omega
  have hpadded : padded w n = (decimal n).take w ++ (decimal n).drop w := by
    unfold padded
    rw [Nat.sub_eq_zero_of_le hlong.le, List.replicate_zero, List.nil_append, List.take_append_drop]
  have htake : ((decimal n).take w).length = w := by
    rw [List.length_take]
    omega
  obtain ⟨c, q, hdrop⟩ : ∃ c q, (decimal n).drop w = c :: q := by
    rcases hdrop : (decimal n).drop w with - | ⟨c, q⟩
    · have hnone := List.drop_eq_nil_iff.mp hdrop
      omega
    · exact ⟨c, q, rfl⟩
  have hdigits := decimal_isDigit n
  have hparse := numberParse_append (l := (decimal n).take w)
    (by rw [← List.length_pos_iff, htake]; exact hw)
    (fun c hc => hdigits c (List.mem_of_mem_take hc)) ((decimal n).drop w ++ rest)
  rw [htake, ← List.append_assoc, ← hpadded, hdrop] at hparse
  refine ⟨_, c, q, hparse, hdigits c (List.mem_of_mem_drop (hdrop ▸ List.mem_cons_self)), ?_⟩
  have hvalue := digitsValue_decimal n
  rw [← List.take_append_drop w (decimal n), digitsValue_append, hdrop, List.length_cons,
    Nat.pow_succ] at hvalue
  have hpow : 0 < 10 ^ q.length := Nat.pow_pos (by decide)
  nlinarith

theorem integer_of_nonneg {w : ℕ} {n : ℤ} (h : 0 ≤ n) : integer w n = padded w n.natAbs := by
  unfold integer
  rw [if_neg (by omega)]

/-! ## Parts of a text -/

theorem skipSpaces_cons {c : UInt8} (h : c ≠ 32) (p : List UInt8) :
    skipSpaces (32 :: c :: p) = some (c :: p) := by
  simp [skipSpaces, h]

theorem ne_space_of_isDigit {c : UInt8} (h : isDigit c = true) : c ≠ 32 := by
  rintro rfl
  cases h

theorem padded_cons (w n : ℕ) : ∃ c q, padded w n = c :: q ∧ isDigit c = true := by
  rcases hpadded : padded w n with - | ⟨c, q⟩
  · exact absurd (List.append_eq_nil_iff.mp hpadded).2 (decimal_ne_nil n)
  · exact ⟨c, q, rfl, padded_isDigit w n c (hpadded ▸ List.mem_cons_self)⟩

theorem skipSpaces_padded (w n : ℕ) (rest : List UInt8) :
    skipSpaces (32 :: (padded w n ++ rest)) = some (padded w n ++ rest) := by
  obtain ⟨c, q, hpadded, hc⟩ := padded_cons w n
  rw [hpadded]
  exact skipSpaces_cons (ne_space_of_isDigit hc) _

theorem numberParse_two {n : ℕ} (h : n < 100) (rest : List UInt8) :
    numberParse 2 (padded 2 n ++ rest) = some (n, rest) :=
  numberParse_padded (by decide) h rest

/-- The bytes of hours, minutes and seconds. -/
def clockText (h m s : ℕ) : List UInt8 := padded 2 h ++ 58 :: (padded 2 m ++ 58 :: padded 2 s)

theorem timeParse_clockText {h m s : ℕ} (hh : h < 100) (hm : m < 100) (hs : s < 100)
    (tm : Fields) (rest : List UInt8) :
    timeParse tm (clockText h m s ++ rest) =
      some ({ tm with hr := h, min := m, sec := s }, rest) := by
  simp [clockText, timeParse, numberParse_two hh, numberParse_two hm, numberParse_two hs]

/-- A text that ends with a number does not end with a letter. -/
theorem getLast_padded (l : List UInt8) (w n : ℕ) : (l ++ padded w n).getLast? ≠ some 90 := by
  obtain ⟨c, q, hpadded, -⟩ := padded_cons w n
  rw [List.getLast?_append_of_ne_nil _ (by simp [hpadded])]
  intro hlast
  cases padded_isDigit w n 90 (List.mem_of_getLast? hlast)

theorem monthParse_month {i : ℕ} (h : i < 12) (rest : List UInt8) :
    monthParse (ascii (month.getD i "") ++ rest) = some i := by
  interval_cases i <;> rfl

/-! ## ISO texts -/

theorem isoEndParse_z (zone : ℤ) (tm : Fields) (p : List UInt8) :
    isoEndParse zone tm (p ++ [90]) = isoTimeParse zone true tm p := by
  simp [isoEndParse]

theorem isoTimeParse_seconds {h m s : ℕ} (hh : h < 100) (hm : m < 100) (hs : s < 100) (utc : Bool)
    (tm : Fields) : isoTimeParse zone utc tm (clockText h m s) =
      makeDate zone { tm with hr := h, min := m, sec := s } false := by
  have hclock := timeParse_clockText hh hm hs tm []
  rw [List.append_nil] at hclock
  simp [isoTimeParse, hclock]

theorem isoTimeParse_fraction {h m s ms : ℕ} (hh : h < 100) (hm : m < 100) (hs : s < 100)
    (hms : ms < 1000) (utc : Bool) (tm : Fields) :
    isoTimeParse zone utc tm (clockText h m s ++ 46 :: padded 3 ms) =
      makeDate zone { tm with hr := h, min := m, sec := s, msec := ms } !utc := by
  have hlength : (padded 3 ms).length = 3 := length_padded (by decide) hms
  have hparse := numberParse_padded (w := 3) (by decide) hms []
  rw [List.append_nil] at hparse
  simp [isoTimeParse, timeParse_clockText hh hm hs, hlength, hparse]

theorem isoDayParse_day {mo d : ℕ} (hmo : mo < 100) (hd : d < 100) (tm : Fields) (p : List UInt8) :
    isoDayParse zone tm (padded 2 mo ++ 45 :: (padded 2 d ++ 84 :: p)) =
      isoEndParse zone { tm with mon := mo - 1, day := d } p := by
  simp [isoDayParse, numberParse_two hmo, numberParse_two hd]

/-- A text that does not end with `Z`. -/
theorem isoEndParse_local {p : List UInt8} (h : p.getLast? ≠ some 90) (tm : Fields) :
    isoEndParse zone tm p = isoTimeParse zone false tm p := by
  simp [isoEndParse, h]

/-- A year of four digits. -/
theorem stringParse_four {n : ℕ} (h : n < 10000) (p : List UInt8) :
    stringParse zone (padded 4 n ++ 45 :: p) =
      isoDayParse zone { Fields.initial with yr := n } p := by
  have hparse := numberParse_padded (w := 4) (by decide) h (45 :: p)
  obtain ⟨c, q, hpadded, hc⟩ := padded_cons 4 n
  have hsign : ¬(c = 43 ∨ c = 45) := by
    rintro (rfl | rfl) <;> cases hc
  rw [hpadded, List.cons_append] at hparse ⊢
  simp only [stringParse, hsign, if_false, hparse, isoParse, if_true]

/-- Six digits are read as four digits and two digits. -/
theorem numberParse_six {n : ℕ} (h : n < 1000000) (p : List UInt8) :
    ∃ c q, numberParse 4 (padded 6 n ++ p) = some (n / 100, c :: q) ∧ isDigit c = true ∧
      numberParse 2 (c :: q) = some (n % 100, p) := by
  have hlength : (padded 6 n).length = 6 := length_padded (by decide) h
  have hdigits := padded_isDigit 6 n
  have hvalue := digitsValue_padded 6 n
  obtain ⟨l, l', hsplit, hl⟩ : ∃ l l', padded 6 n = l ++ l' ∧ l.length = 4 :=
    ⟨_, _, (List.take_append_drop 4 _).symm, by rw [List.length_take, hlength]; rfl⟩
  rw [hsplit] at hlength hdigits hvalue ⊢
  have hl' : l'.length = 2 := by
    rw [List.length_append] at hlength
    omega
  have hlow := digitsValue_lt fun c hc => hdigits c (List.mem_append_right l hc)
  rw [hl'] at hlow
  rw [digitsValue_append, hl'] at hvalue
  have hfour := numberParse_append (l := l) (by rintro rfl; cases hl)
    (fun c hc => hdigits c (List.mem_append_left _ hc)) (l' ++ p)
  have htwo := numberParse_append (l := l') (by rintro rfl; cases hl')
    (fun c hc => hdigits c (List.mem_append_right _ hc)) p
  rw [hl, ← List.append_assoc] at hfour
  rw [hl'] at htwo
  rcases l' with - | ⟨c, q⟩
  · cases hl'
  · refine ⟨c, q ++ p, ?_, hdigits c (by simp), ?_⟩
    · rw [hfour]
      have : digitsValue l = n / 100 := by omega
      simp [this]
    · have : digitsValue (c :: q) = n % 100 := by omega
      rw [← this, ← htwo]
      rfl

/-- A sign and a year of six digits. -/
theorem stringParse_six {n : ℕ} (h : n < 1000000) {c : UInt8} (hc : c = 43 ∨ c = 45)
    (p : List UInt8) :
    stringParse zone (c :: (padded 6 n ++ 45 :: p)) =
      if c = 45 ∧ n = 0 then none
      else isoDayParse zone { Fields.initial with yr := if c = 45 then -n else n } p := by
  obtain ⟨d, q, hfour, hd, htwo⟩ := numberParse_six h (45 :: p)
  have hdash : d ≠ 45 := by
    rintro rfl
    cases hd
  have hyear : n / 100 * 100 + n % 100 = n := by omega
  simp only [stringParse, hc, if_true, hfour, isoParse, hdash, if_false, htwo, hyear,
    Option.bind_eq_bind, Option.bind_some, decide_eq_true_eq, Nat.cast_eq_zero, ne_eq,
    not_true_eq_false]

@[simp] theorem integer_natCast (w n : ℕ) : integer w (n : ℤ) = padded w n :=
  integer_of_nonneg (Int.natCast_nonneg n)

/-- The hours, minutes and seconds of valid fields. -/
theorem clock_eq (wd yr mo d : ℤ) (h m s : ℕ) (ms : ℤ) :
    clock ⟨wd, yr, mo, d, h, m, s, ms⟩ = clockText h m s := by
  have hcolon : ascii ":" = [58] := rfl
  simp only [clock, clockText, integer_natCast, hcolon, List.append_assoc, List.cons_append,
    List.nil_append]

/-- An ISO text after the year, with the milliseconds. -/
theorem isoDayParse_text (hvalid : tm.Valid) (yr : ℤ) :
    isoDayParse zone { Fields.initial with yr := yr } (integer 2 (tm.mon + 1) ++ ascii "-" ++
      integer 2 tm.day ++ ascii "T" ++ clock tm ++ ascii "." ++ integer 3 tm.msec ++ ascii "Z") =
      makeDate zone { tm with yr := yr } false := by
  obtain ⟨yr', wd, mo, d, h, m, s, ms, rfl, -, hmo, -, hd, hh, hm, hs, hms⟩ := hvalid.exists_nat
  have htext : integer 2 ((mo : ℤ) + 1) ++ ascii "-" ++ integer 2 (d : ℤ) ++ ascii "T" ++
      clock ⟨wd, yr', mo, d, h, m, s, ms⟩ ++ ascii "." ++ integer 3 (ms : ℤ) ++ ascii "Z" =
      padded 2 (mo + 1) ++ 45 :: (padded 2 d ++
        84 :: ((clockText h m s ++ 46 :: padded 3 ms) ++ [90])) := by
    have hdash : ascii "-" = [45] := rfl
    have ht : ascii "T" = [84] := rfl
    have hdot : ascii "." = [46] := rfl
    have hz : ascii "Z" = [90] := rfl
    have hnext : integer 2 ((mo : ℤ) + 1) = padded 2 (mo + 1) := integer_natCast 2 (mo + 1)
    simp only [clock_eq, hnext, integer_natCast, hdash, ht, hdot, hz, List.append_assoc,
      List.cons_append, List.nil_append]
  rw [htext, isoDayParse_day (by omega) (by omega), isoEndParse_z,
    isoTimeParse_fraction (by omega) (by omega) (by omega) (by omega)]
  simp [makeDate, fieldsTime]

/-- The ISO text of a valid time reads back as the time. -/
theorem stringParse_toISOString (hlow : -8640000000000000 ≤ time)
    (hhigh : time ≤ 8640000000000000) :
    stringParse zone (dateString zone .toISOString time) = some time := by
  have hvalid := destructDate_valid zone time
  have hyear := destructDate_year_bounds zone hlow hhigh
  have htime : makeDate zone (destructDate zone time false) false = some time := by
    unfold makeDate timeclip
    rw [fieldsTime_destructDate, if_neg (by omega)]
  have hyr : ∀ yr, yr = (destructDate zone time false).yr →
      makeDate zone { destructDate zone time false with yr := yr } false = some time := by
    rintro _ rfl
    exact htime
  have hday := fun yr => @isoDayParse_text zone _ hvalid yr
  have htext : dateString zone .toISOString time = isoYear (destructDate zone time false).yr ++
      45 :: (integer 2 ((destructDate zone time false).mon + 1) ++ ascii "-" ++
        integer 2 (destructDate zone time false).day ++ ascii "T" ++
        clock (destructDate zone time false) ++ ascii "." ++
        integer 3 (destructDate zone time false).msec ++ ascii "Z") := by
    have hdash : ascii "-" = [45] := rfl
    simp only [dateString, hdash, List.append_assoc, List.cons_append, List.nil_append]
  rw [htext]
  unfold isoYear
  generalize (destructDate zone time false).yr = yr at hyear hyr
  obtain ⟨n, hn⟩ : ∃ n, n = yr.natAbs := ⟨_, rfl⟩
  split_ifs with hfour hpos
  · rw [integer_of_nonneg hfour.1, ← hn, stringParse_four (by omega), hday]
    exact hyr n (by omega)
  · rw [integer_of_nonneg hpos.le, ← hn, List.cons_append,
      stringParse_six (by omega) (Or.inl rfl), if_neg (fun h => absurd h.1 (by decide)),
      if_neg (by decide), hday]
    exact hyr n (by omega)
  · have hneg : integer 6 yr = 45 :: padded 6 n := by
      rw [hn, integer, if_pos (by omega)]
    rw [hneg, List.cons_append, stringParse_six (by omega) (Or.inr rfl), if_neg (by omega),
      if_pos rfl, hday]
    exact hyr (-n) (by omega)

/-! ## Texts of `toString` and `toUTCString` -/

/-- The name of a day is neither a number nor the name of a month, and it is skipped. -/
theorem stringParse_week {i : ℕ} (h : i < 7) (p : List UInt8) :
    stringParse zone (ascii (week.getD i "") ++ p) = (do
      let p ← skipWeekDay p
      let p ← skipSpaces p
      dayParse zone p fun _ => none) := by
  interval_cases i <;> rfl

/-- The name of a month is not a number. -/
theorem dayParse_month {i : ℕ} (h : i < 12) (p : List UInt8) (skipped : List UInt8 → Option ℤ) :
    dayParse zone (ascii (month.getD i "") ++ p) skipped =
      jsStringParse zone { Fields.initial with mon := i } p := by
  interval_cases i <;> rfl

/-- A year after a space is read as it was written if it has four digits and no sign. Otherwise
it is no number, or some of its digits are left. -/
theorem yearParse (yr : ℤ) (rest : List UInt8) :
    (0 ≤ yr ∧ yr ≤ 9999 ∧ skipSpaces (32 :: (integer 4 yr ++ rest)) = some (integer 4 yr ++ rest) ∧
      numberParse 4 (integer 4 yr ++ rest) = some (yr.natAbs, rest)) ∨
    (¬(0 ≤ yr ∧ yr ≤ 9999) ∧ ∃ p, skipSpaces (32 :: (integer 4 yr ++ rest)) = some p ∧
      (numberParse 4 p = none ∨
        ∃ n c q, numberParse 4 p = some (n, c :: q) ∧ skipSpaces (c :: q) = none)) := by
  by_cases hyear : 0 ≤ yr ∧ yr ≤ 9999
  · refine Or.inl ⟨hyear.1, hyear.2, ?_⟩
    rw [integer_of_nonneg hyear.1]
    exact ⟨skipSpaces_padded _ _ _, numberParse_padded (by decide) (by omega) rest⟩
  · refine Or.inr ⟨hyear, ?_⟩
    by_cases hneg : yr < 0
    · rw [integer, if_pos hneg]
      exact ⟨_, skipSpaces_cons (by decide) _, Or.inl (numberParse_cons rfl 4)⟩
    · rw [integer_of_nonneg (by omega)]
      obtain ⟨n, c, q, hparse, hc, -⟩ :=
        numberParse_long (w := 4) (n := yr.natAbs) (by decide) (by omega) rest
      refine ⟨_, skipSpaces_padded _ _ _, Or.inr ⟨n, c, _, hparse, ?_⟩⟩
      simp [skipSpaces, ne_space_of_isDigit hc]

theorem clockText_cons (h m s : ℕ) : ∃ c q, clockText h m s = c :: q ∧ c ≠ 32 := by
  obtain ⟨c, q, hpadded, hc⟩ := padded_cons 2 h
  exact ⟨c, _, by rw [clockText, hpadded]; rfl, ne_space_of_isDigit hc⟩

theorem skipSpaces_clockText (h m s : ℕ) (rest : List UInt8) :
    skipSpaces (32 :: (clockText h m s ++ rest)) = some (clockText h m s ++ rest) := by
  obtain ⟨c, q, hclock, hc⟩ := clockText_cons h m s
  rw [hclock]
  exact skipSpaces_cons hc _

/-- The text of `toString` after the name of the month. -/
theorem jsStringParse_text {d h m s : ℕ} (hd : d < 100) (hh : h < 100) (hm : m < 100) (hs : s < 100)
    (yr : ℤ) (off : List UInt8) :
    jsStringParse zone tm (32 :: (padded 2 d ++ 32 :: (integer 4 yr ++
        32 :: (clockText h m s ++ 32 :: (ascii "GMT" ++ off))))) =
      if (0 ≤ yr ∧ yr ≤ 9999) ∧ gmtoffParse off ≠ -1 then
        makeDate zone { tm with
          day := d, yr := yr, hr := h, min := m, sec := s, msec := -gmtoffParse off * 60000 } false
      else none := by
  have hspace_gmt : skipSpaces (32 :: (ascii "GMT" ++ off)) = some (ascii "GMT" ++ off) := rfl
  have hdrop : (ascii "GMT" ++ off).drop 3 = off := rfl
  have hprefix : (ascii "GMT").isPrefixOf (ascii "GMT" ++ off) = true := rfl
  have hclock : clockText h m s ++ 32 :: (ascii "GMT" ++ off) ≠ [] := by simp
  have hgmt : ascii "GMT" ++ off ≠ [] := nofun
  unfold jsStringParse
  rcases yearParse yr (32 :: (clockText h m s ++ 32 :: (ascii "GMT" ++ off))) with
    ⟨hlow, hhigh, hspace, hyear⟩ | ⟨hnot, p, hspace, hyear⟩
  · have hnat : (yr.natAbs : ℤ) = yr := Int.natAbs_of_nonneg hlow
    simp only [skipSpaces_padded, numberParse_two hd, hspace, hyear, skipSpaces_clockText,
      timeParse_clockText hh hm hs, hspace_gmt, hdrop, hprefix, hclock, hgmt, hnat,
      Option.bind_eq_bind, Option.bind_some, reduceCtorEq, if_false, true_and, hlow, hhigh]
  · rw [if_neg fun h => hnot h.1]
    simp only [skipSpaces_padded, numberParse_two hd, hspace, Option.bind_eq_bind,
      Option.bind_some]
    rcases hyear with hnone | ⟨n, c, q, hlong, hrest⟩
    · rw [hnone]
      rfl
    · simp only [hlong, hrest, Option.bind_some, reduceCtorEq, if_false]
      rfl

/-- The text of `toUTCString` after the day of the month. -/
theorem rfc2822StringParse_text {i h m s : ℕ} (hi : i < 12) (hh : h < 100) (hm : m < 100)
    (hs : s < 100) (yr : ℤ) :
    rfc2822StringParse zone tm (32 :: (ascii (month.getD i "") ++ 32 :: (integer 4 yr ++
        32 :: (clockText h m s ++ 32 :: ascii "GMT")))) =
      if 0 ≤ yr ∧ yr ≤ 9999 then
        makeDate zone { tm with mon := i, yr := yr, hr := h, min := m, sec := s, msec := 0 } false
      else none := by
  have hname : ∀ p, skipSpaces (32 :: (ascii (month.getD i "") ++ p)) =
      some (ascii (month.getD i "") ++ p) := fun p => by
    interval_cases i <;> rfl
  have hdrop : ∀ p, (ascii (month.getD i "") ++ p).drop 3 = p := fun p => by
    interval_cases i <;> rfl
  have hclock : clockText h m s ++ 32 :: ascii "GMT" ≠ [] := by simp
  have hspace_gmt : skipSpaces (32 :: ascii "GMT") = some (ascii "GMT") := rfl
  have hgmt : ascii "GMT" ≠ [] := nofun
  have hlength : ¬(ascii "GMT").length ≤ 2 := by decide
  have hprefix : (ascii "GMT").isPrefixOf (ascii "GMT") = true := rfl
  unfold rfc2822StringParse
  rcases yearParse yr (32 :: (clockText h m s ++ 32 :: ascii "GMT")) with
    ⟨hlow, hhigh, hspace, hyear⟩ | ⟨hnot, p, hspace, hyear⟩
  · have hnat : (yr.natAbs : ℤ) = yr := Int.natAbs_of_nonneg hlow
    simp only [hname, hdrop, monthParse_month hi, hspace, hyear, skipSpaces_clockText,
      timeParse_clockText hh hm hs, hspace_gmt, hprefix, hclock, hgmt, hlength, hnat,
      Option.bind_eq_bind, Option.bind_some, reduceCtorEq, if_false, if_true, true_or, neg_zero,
      zero_mul, hlow, hhigh, and_self]
  · rw [if_neg hnot]
    simp only [hname, hdrop, monthParse_month hi, hspace, Option.bind_eq_bind, Option.bind_some]
    rcases hyear with hnone | ⟨n, c, q, hlong, hrest⟩
    · rw [hnone]
      rfl
    · simp only [hlong, hrest, Option.bind_some, reduceCtorEq, if_false]
      rfl

/-- The bytes of an offset. -/
def offsetText (zone : ℤ) : List UInt8 :=
  (if zone < 0 then 45 else 43) :: (padded 2 (zone.natAbs / 60) ++ padded 2 (zone.natAbs % 60))

theorem length_padded_ge (w n : ℕ) : w ≤ (padded w n).length := by
  unfold padded
  rw [List.length_append, List.length_replicate]
  omega

/-- The reader takes two digits for the hours of an offset. -/
theorem gmtoffParse_offsetText (zone : ℤ) :
    gmtoffParse (offsetText zone) = zone ↔ zone.natAbs < 6000 := by
  obtain ⟨n, hn⟩ : ∃ n, n = zone.natAbs := ⟨_, rfl⟩
  obtain ⟨sign, hsign⟩ : ∃ sign : UInt8, sign = if zone < 0 then 45 else 43 := ⟨_, rfl⟩
  have hminus : sign = 45 ↔ zone < 0 := by
    rw [hsign]
    split_ifs with hneg <;> simp [hneg]
  have hlength : 4 < (offsetText zone).length ∧ (sign = 43 ∨ sign = 45) := by
    have h1 := length_padded_ge 2 (zone.natAbs / 60)
    have h2 := length_padded_ge 2 (zone.natAbs % 60)
    refine ⟨?_, ?_⟩
    · rw [offsetText, List.length_cons, List.length_append]
      omega
    · rw [hsign]
      split_ifs <;> simp
  unfold offsetText at hlength ⊢
  rw [← hsign, ← hn] at hlength ⊢
  unfold gmtoffParse
  simp only [hlength, and_self, if_true]
  by_cases hhour : n / 60 < 100
  · have hmin := numberParse_two (show n % 60 < 100 by omega) []
    rw [List.append_nil] at hmin
    simp only [numberParse_two hhour, hmin, hminus]
    split_ifs <;> omega
  · obtain ⟨hour, c, q, hparse, hc, hless⟩ := numberParse_long (w := 2) (n := n / 60) (by decide)
      (by omega) (padded 2 (n % 60))
    simp only [hparse, hminus]
    refine ⟨fun h => ?_, fun h => by omega⟩
    exfalso
    rcases hrest : numberParse 2 (c :: (q ++ padded 2 (n % 60))) with - | ⟨min, r⟩
    · rw [hrest] at h
      simp only at h
      omega
    · have hmin := numberParse_lt hrest
      rw [hrest] at h
      simp only at h
      split_ifs at h <;> omega

theorem stringParse_toUTCString_iff (hlow : -8640000000000000 ≤ time)
    (hhigh : time ≤ 8640000000000000) (hms : time % 1000 = 0) :
    stringParse zone (dateString zone .toUTCString time) = some time ↔
      -62167219200000 ≤ time ∧ time ≤ 253402300799999 := by
  have htime := fieldsTime_destructDate zone time
  have hmsec := destructDate_msec zone time
  have hyear := destructDate_year_iff zone time
  obtain ⟨yr, wd, mo, d, h, m, s, ms, heq, hwd, hmo, -, hd, hh, hm, hs, -⟩ :=
    (destructDate_valid zone time).exists_nat
  rw [heq] at htime hmsec hyear
  have htext : dateString zone .toUTCString time = ascii (week.getD wd "") ++ 44 :: 32 ::
      (padded 2 d ++ 32 :: (ascii (month.getD mo "") ++ 32 :: (integer 4 yr ++
        32 :: (clockText h m s ++ 32 :: ascii "GMT")))) := by
    have hcomma : ascii ", " = [44, 32] := rfl
    have hspace : ascii " " = [32] := rfl
    have hgmt : ascii " GMT" = 32 :: ascii "GMT" := rfl
    simp only [dateString, heq, clock_eq, integer_natCast, Int.toNat_natCast, hcomma, hspace, hgmt,
      List.append_assoc, List.cons_append, List.nil_append]
  have hday : ∀ rest, dayParse zone (padded 2 d ++ rest) (fun _ => none) =
      rfc2822StringParse zone { Fields.initial with day := d } rest := fun rest => by
    simp only [dayParse, numberParse_two (show d < 100 by omega)]
  have hskip : ∀ rest, skipWeekDay (44 :: 32 :: rest) = some (32 :: rest) := fun _ => rfl
  rw [htext, stringParse_week hwd, hskip, Option.bind_eq_bind, Option.bind_some,
    skipSpaces_padded, Option.bind_some, hday,
    rfc2822StringParse_text hmo (by omega) (by omega) (by omega), ← hyear]
  have hmake : makeDate zone { Fields.initial with
      day := d, mon := mo, yr := yr, hr := h, min := m, sec := s, msec := 0 } false =
          some time := by
    obtain rfl : ms = 0 := by
      simp only at hmsec
      omega
    have hfields : fieldsTime zone { Fields.initial with
        day := d, mon := mo, yr := yr, hr := h, min := m, sec := s, msec := 0 } false = time := by
      simpa [fieldsTime] using htime
    rw [makeDate, hfields, timeclip, if_neg (by omega)]
  split_ifs with hfour
  · exact ⟨fun _ => hfour, fun _ => hmake⟩
  · exact ⟨nofun, fun h => absurd h hfour⟩

/-- The text of `toString` of a time without milliseconds reads back as the time exactly if its
local year has four digits and its offset is not the one that stands for an error. -/
theorem stringParse_toString_iff (hlow : -8640000000000000 ≤ time)
    (hhigh : time ≤ 8640000000000000) (hms : time % 1000 = 0) :
    stringParse zone (dateString zone .toString time) = some time ↔
      (-62167219200000 ≤ time + zone * 60000 ∧ time + zone * 60000 ≤ 253402300799999) ∧
        zone ≠ -1 ∧ zone.natAbs < 6000 := by
  have htime := fieldsTime_destructDate zone (time + zone * 60000)
  have hmsec := destructDate_msec zone (time + zone * 60000)
  have hyear := destructDate_year_iff zone (time + zone * 60000)
  obtain ⟨yr, wd, mo, d, h, m, s, ms, heq, hwd, hmo, -, hd, hh, hm, hs, -⟩ :=
    (destructDate_valid zone (time + zone * 60000)).exists_nat
  rw [heq] at htime hmsec hyear
  have htext : dateString zone .toString time = ascii (week.getD wd "") ++ 32 ::
      (ascii (month.getD mo "") ++ 32 :: (padded 2 d ++ 32 :: (integer 4 yr ++
        32 :: (clockText h m s ++ 32 :: (ascii "GMT" ++ offsetText zone))))) := by
    have hspace : ascii " " = [32] := rfl
    have hgmt : ascii " GMT" = 32 :: ascii "GMT" := rfl
    simp only [dateString, dateText, timeText, offsetText, destructDate_local, heq, clock_eq,
      tzOffset_eq, neg_neg, integer_natCast, Int.toNat_natCast, hspace, hgmt,
      List.append_assoc, List.cons_append, List.nil_append]
  have hskip : ∀ rest, skipWeekDay (32 :: rest) = some (32 :: rest) := fun _ => rfl
  have hname : ∀ p, skipSpaces (32 :: (ascii (month.getD mo "") ++ p)) =
      some (ascii (month.getD mo "") ++ p) := fun p => by
    interval_cases mo <;> rfl
  rw [htext, stringParse_week hwd, hskip, Option.bind_eq_bind, Option.bind_some, hname,
    Option.bind_some, dayParse_month hmo,
    jsStringParse_text (by omega) (by omega) (by omega) (by omega), ← hyear,
    ← gmtoffParse_offsetText]
  obtain ⟨g, hg⟩ : ∃ g, g = gmtoffParse (offsetText zone) := ⟨_, rfl⟩
  rw [← hg]
  have hfields : fieldsTime zone { Fields.initial with
      mon := mo, day := d, yr := yr, hr := h, min := m, sec := s, msec := -g * 60000 } false =
      time + (zone - g) * 60000 := by
    simp only [fieldsTime, Bool.false_eq_true, if_false] at htime hmsec ⊢
    have hzero : (ms : ℤ) = 0 := by omega
    linarith
  simp only [makeDate, hfields]
  by_cases hyr : 0 ≤ yr ∧ yr ≤ 9999
  · by_cases hg1 : g = -1
    · rw [if_neg fun h => h.2 hg1, hg1]
      exact ⟨nofun, fun h => absurd h.2.2.symm h.2.1⟩
    · rw [if_pos ⟨hyr, hg1⟩]
      have hclip : timeclip (time + (zone - g) * 60000) = some time ↔ g = zone := by
        unfold timeclip
        split_ifs with hrange
        · exact ⟨nofun, fun h => by omega⟩
        · rw [Option.some_inj]
          omega
      rw [hclip]
      exact ⟨fun h => ⟨hyr, h ▸ hg1, h⟩, fun h => h.2.2⟩
  · rw [if_neg fun h => hyr h.1]
    exact ⟨nofun, fun h => absurd h.1 hyr⟩

/-! ## Fractions of a second -/

/-- An ISO text with a time, without a fraction of a second and without the `Z`: a year of four
digits, or a sign and a year of six digits. -/
structure IsoText where
  /-- The sign of a long year, which is set for a minus. -/
  sign : Option Bool
  year : ℕ
  month : ℕ
  day : ℕ
  hour : ℕ
  minute : ℕ
  second : ℕ
  year_lt : year < if sign = none then 10000 else 1000000
  month_lt : month < 100
  day_lt : day < 100
  hour_lt : hour < 100
  minute_lt : minute < 100
  second_lt : second < 100

namespace IsoText

def text (iso : IsoText) : List UInt8 :=
  (match iso.sign with
    | none => padded 4 iso.year
    | some minus => (if minus then 45 else 43) :: padded 6 iso.year) ++
  45 :: (padded 2 iso.month ++ 45 :: (padded 2 iso.day ++ 84 ::
    clockText iso.hour iso.minute iso.second))

/-- The fields that the text stands for. -/
def fields (iso : IsoText) : Fields where
  wday := 0
  yr := if iso.sign = some true then -iso.year else iso.year
  mon := iso.month - 1
  day := iso.day
  hr := iso.hour
  min := iso.minute
  sec := iso.second
  msec := 0

/-- There is no year zero with a minus. -/
def MinusZero (iso : IsoText) : Prop := iso.sign = some true ∧ iso.year = 0

instance (iso : IsoText) : Decidable iso.MinusZero := inferInstanceAs (Decidable (_ ∧ _))

/-- Neither in UTC nor in the time zone the fields make a valid time. -/
def OutOfRange (zone : ℤ) (iso : IsoText) : Prop :=
  timeclip (fieldsTime zone iso.fields false) = none ∧
    timeclip (fieldsTime zone iso.fields true) = none

end IsoText

/-- Writing a zero fraction of a second or omitting it does not change the time. -/
def FractionIrrelevant (zone : ℤ) (iso : IsoText) (z : Bool) : Prop :=
  stringParse zone (iso.text ++ ascii ".000" ++ if z then ascii "Z" else []) =
    stringParse zone (iso.text ++ if z then ascii "Z" else [])

/-- The year and the day of an ISO text are read, and the rest of it is left. -/
theorem stringParse_iso (zone : ℤ) (iso : IsoText) (tail : List UInt8) :
    stringParse zone (iso.text ++ tail) =
      if iso.MinusZero then none
      else isoEndParse zone { iso.fields with hr := 0, min := 0, sec := 0 }
        (clockText iso.hour iso.minute iso.second ++ tail) := by
  have hlt := iso.year_lt
  have htail : ∀ (l : List UInt8), (l ++ 45 :: (padded 2 iso.month ++ 45 :: (padded 2 iso.day ++
      84 :: clockText iso.hour iso.minute iso.second))) ++ tail =
      l ++ 45 :: (padded 2 iso.month ++ 45 :: (padded 2 iso.day ++
        84 :: (clockText iso.hour iso.minute iso.second ++ tail))) := fun l => by
    simp only [List.append_assoc, List.cons_append]
  rcases hsign : iso.sign with - | minus
  · rw [if_pos hsign] at hlt
    have hminus : ¬iso.MinusZero := fun h => by
      rw [IsoText.MinusZero, hsign] at h
      cases h.1
    rw [if_neg hminus]
    simp only [IsoText.text, IsoText.fields, hsign, htail, reduceCtorEq, if_false]
    rw [stringParse_four hlt, isoDayParse_day iso.month_lt iso.day_lt]
    rfl
  · rw [if_neg (by simp [hsign])] at hlt
    have hminus : iso.MinusZero ↔ minus = true ∧ iso.year = 0 := by
      rw [IsoText.MinusZero, hsign, Option.some_inj]
    simp only [hminus, IsoText.text, IsoText.fields, hsign, htail, Option.some_inj,
      List.cons_append]
    cases minus with
    | false =>
      simp only [Bool.false_eq_true, if_false, false_and]
      rw [stringParse_six hlt (Or.inl rfl), if_neg fun h => absurd h.1 (by decide),
        if_neg (by decide), isoDayParse_day iso.month_lt iso.day_lt]
      rfl
    | true =>
      simp only [if_true, true_and]
      rw [stringParse_six hlt (Or.inr rfl), if_pos rfl, isoDayParse_day iso.month_lt iso.day_lt]
      simp only [true_and]
      rfl

/-- A zero fraction of a second changes the time of a text without `Z`, which is then taken as
local, unless there is no offset or no valid time anyway. -/
theorem fractionIrrelevant_iff (zone : ℤ) (iso : IsoText) (z : Bool) :
    FractionIrrelevant zone iso z ↔
      z = true ∨ zone = 0 ∨ iso.MinusZero ∨ iso.OutOfRange zone := by
  have hzeros : ascii ".000" = 46 :: padded 3 0 := rfl
  have hz : ascii "Z" = [90] := rfl
  have hclock := fun utc => @isoTimeParse_seconds zone _ _ _ iso.hour_lt iso.minute_lt iso.second_lt
    utc { iso.fields with hr := 0, min := 0, sec := 0 }
  have hfraction := fun utc => @isoTimeParse_fraction zone _ _ _ 0 iso.hour_lt iso.minute_lt
    iso.second_lt (by decide) utc { iso.fields with hr := 0, min := 0, sec := 0 }
  unfold FractionIrrelevant
  rw [List.append_assoc, stringParse_iso, stringParse_iso, hzeros, hz]
  by_cases hminus : iso.MinusZero
  · simp only [hminus, if_true, true_or, or_true]
  simp only [hminus, if_false, false_or]
  cases z with
  | true =>
    simp only [if_true, true_or, iff_true]
    rw [← List.append_assoc, isoEndParse_z, isoEndParse_z, hfraction, hclock]
    rfl
  | false =>
    have hlast : (clockText iso.hour iso.minute iso.second).getLast? ≠ some 90 := by
      have hend := getLast_padded (padded 2 iso.hour ++ 58 :: (padded 2 iso.minute ++ [58])) 2
        iso.second
      rwa [List.append_assoc, List.cons_append, List.append_assoc, List.singleton_append] at hend
    have hlast' : (clockText iso.hour iso.minute iso.second ++ 46 :: padded 3 0).getLast? ≠
        some 90 := by
      have hend := getLast_padded (clockText iso.hour iso.minute iso.second ++ [46]) 3 0
      rwa [List.append_assoc, List.singleton_append] at hend
    have htime : fieldsTime zone iso.fields true =
        fieldsTime zone iso.fields false - zone * 60000 := by
      simp only [fieldsTime, if_true, Bool.false_eq_true, if_false, tzOffset_eq]
      ring
    simp only [Bool.false_eq_true, if_false, List.append_nil, false_or]
    rw [isoEndParse_local hlast, isoEndParse_local hlast', hfraction, hclock]
    change timeclip (fieldsTime zone iso.fields true) = timeclip (fieldsTime zone iso.fields false)
      ↔ zone = 0 ∨ (_ ∧ _)
    rw [htime]
    unfold timeclip
    split_ifs <;> simp
    all_goals omega

/-! ## Dates -/

/-- The time of a valid date. -/
structure Time where
  value : ℤ
  low : -8640000000000000 ≤ value
  high : value ≤ 8640000000000000

/-- The ISO text of a date reads back as its time, and so do the texts of `toUTCString` and
`toString` if it has no milliseconds. -/
def ReadsBack (zone : ℤ) (date : Time) : Prop :=
  stringParse zone (dateString zone .toISOString date.value) = some date.value ∧
    (date.value % 1000 = 0 →
      stringParse zone (dateString zone .toUTCString date.value) = some date.value ∧
        stringParse zone (dateString zone .toString date.value) = some date.value)

/-- The time is one of the years from 0 to 9999 in UTC and in the time zone, which is not a
minute before UTC and is less than a hundred hours away from it. -/
def Readable (zone : ℤ) (date : Time) : Prop :=
  (-62167219200000 ≤ date.value ∧ date.value ≤ 253402300799999) ∧
    (-62167219200000 ≤ date.value + zone * 60000 ∧
      date.value + zone * 60000 ≤ 253402300799999) ∧
    zone ≠ -1 ∧ zone.natAbs < 6000

theorem readsBack_iff_of_zone (zone : ℤ) (date : Time) :
    ReadsBack zone date ↔ (date.value % 1000 = 0 → Readable zone date) := by
  have hiso := @stringParse_toISOString zone _ date.low date.high
  unfold ReadsBack Readable
  constructor
  · rintro ⟨-, h⟩ hms
    obtain ⟨hutc, hlocal⟩ := h hms
    exact ⟨(stringParse_toUTCString_iff date.low date.high hms).mp hutc,
      (stringParse_toString_iff date.low date.high hms).mp hlocal⟩
  · intro h
    exact ⟨hiso, fun hms => ⟨(stringParse_toUTCString_iff date.low date.high hms).mpr (h hms).1,
      (stringParse_toString_iff date.low date.high hms).mpr (h hms).2⟩⟩

/-- **The texts of a date read back as its time exactly if it has milliseconds or it is
readable, and a zero fraction of a second is irrelevant exactly if the text ends with `Z`, or
the time zone is UTC, or there is no valid time with it or without it.** -/
theorem dateTexts_iff (zone : ℤ) (date : Time) (iso : IsoText) (z : Bool) :
    (ReadsBack zone date ↔ (date.value % 1000 = 0 → Readable zone date)) ∧
      (FractionIrrelevant zone iso z ↔
        z = true ∨ zone = 0 ∨ iso.MinusZero ∨ iso.OutOfRange zone) :=
  ⟨readsBack_iff_of_zone zone date, fractionIrrelevant_iff zone iso z⟩

/-- The start of 1970 a minute before UTC: its offset stands for an error. -/
theorem not_dateTexts : ¬∀ (zone : ℤ) (date : Time) (iso : IsoText) (z : Bool),
    ReadsBack zone date ∧ FractionIrrelevant zone iso z := by
  intro h
  have hback := (h (-1) ⟨0, by decide, by decide⟩
    ⟨none, 1970, 1, 1, 0, 0, 0, by decide, by decide, by decide, by decide, by decide, by decide⟩
    true).1.2 rfl
  have hread := (stringParse_toString_iff (by decide) (by decide) rfl).mp hback.2
  exact hread.2.1 rfl

end Njs.Date
