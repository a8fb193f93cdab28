import Mathlib.Tactic.Common
import Mathlib.Tactic.IntervalCases
import Mathlib.Tactic.Ring

/-!
# Times and the fields of a date

A time is a number of milliseconds since 1970. `njs_destruct_date` takes it apart into the
fields of a date, and `njs_make_date` puts fields together.
-/

namespace Njs.Date

/-- `njs_mod`, with the remainder of C. -/
def mod (a b : ℤ) : ℤ :=
  let m := a.tmod b
  m + if m < 0 then b else 0

/-- `njs_floor_div`, with the division of C. -/
def floorDiv (a b : ℤ) : ℤ :=
  let m := a.tmod b
  (a - (m + if m < 0 then b else 0)).tdiv b

/-- `njs_timeclip`. Nothing stands for a time that is not a number. -/
def timeclip (time : ℤ) : Option ℤ :=
  if time < -8640000000000000 ∨ time > 8640000000000000 then none else some time

/-- `njs_days_in_year`. -/
def daysInYear (y : ℤ) : ℤ :=
  365 + (if y.tmod 4 = 0 then 1 else 0) - (if y.tmod 100 = 0 then 1 else 0)
    + (if y.tmod 400 = 0 then 1 else 0)

/-- `njs_days_from_year`: the days from 1970 to the first day of a year. -/
def daysFromYear (y : ℤ) : ℤ :=
  365 * (y - 1970) + floorDiv (y - 1969) 4 - floorDiv (y - 1901) 100 + floorDiv (y - 1601) 400

/-- `month_days`. -/
def monthDays : List ℤ := [31, 28, 31, 30, 31, 30, 31, 31, 30, 31, 30, 31]

/-- The days of a month of a year. -/
def daysInMonth (y : ℤ) (i : ℕ) : ℤ :=
  monthDays.getD i 0 + if i = 1 then daysInYear y - 365 else 0

/-- The loop of `njs_make_day`: the days of the first months of a year. -/
def daysOfMonths (y : ℤ) : ℕ → ℤ
  | 0 => 0
  | i + 1 => daysOfMonths y i + daysInMonth y i

/-- `njs_make_day`. -/
def makeDay (yr month date : ℤ) : ℤ :=
  let mn := mod month 12
  let ym := yr + (month - mn).tdiv 12
  daysFromYear ym + daysOfMonths ym mn.toNat + date - 1

/-- The loop of `njs_year_from_days`: a year and the days from its start. -/
def yearLoop (d : ℤ) : ℕ → ℤ → ℤ × ℤ
  | 0, y => (y, d - daysFromYear y)
  | steps + 1, y =>
    if d - daysFromYear y < 0 then yearLoop d steps (y - 1)
    else if d - daysFromYear y < daysInYear y then (y, d - daysFromYear y)
    else yearLoop d steps (y + 1)

/-- `njs_year_from_days`. The first year is off by one at most. -/
def yearFromDays (days : ℤ) : ℤ × ℤ :=
  yearLoop days 2 (floorDiv (days * 10000) 3652425 + 1970)

/-- The loop of `njs_destruct_date` over the months from `i` on. -/
def monthLoop (y : ℤ) : ℕ → ℕ → ℤ → ℕ × ℤ
  | 0, i, days => (i, days)
  | months + 1, i, days =>
    if days < daysInMonth y i then (i, days) else monthLoop y months (i + 1)
        (days - daysInMonth y i)

/-- The fields of a date, without a time zone. -/
structure Fields where
  wday : ℤ
  yr : ℤ
  mon : ℤ
  day : ℤ
  hr : ℤ
  min : ℤ
  sec : ℤ
  msec : ℤ
  deriving DecidableEq

/-- `njs_tz_offset` for a time zone that is some minutes before or after UTC. -/
def tzOffset (zone : ℤ) : ℤ := (-(zone * 60)).tdiv 60

/-- The time of some fields before it is clipped. -/
def fieldsTime (zone : ℤ) (tm : Fields) (isLocal : Bool) : ℤ :=
  let time := ((tm.hr * 60 + tm.min) * 60 + tm.sec) * 1000 + tm.msec
    + makeDay tm.yr tm.mon tm.day * 86400000
  if isLocal then time + tzOffset zone * 60000 else time

/-- `njs_make_date`. -/
def makeDate (zone : ℤ) (tm : Fields) (isLocal : Bool) : Option ℤ :=
  timeclip (fieldsTime zone tm isLocal)

/-- `njs_destruct_date` of a time that is a number. -/
def destructDate (zone time : ℤ) (isLocal : Bool) : Fields :=
  let time := if isLocal then time - tzOffset zone * 60000 else time
  let h := mod time 86400000
  let days := (time - h).tdiv 86400000
  let ms := h.tmod 1000
  let h := (h - ms).tdiv 1000
  let s := h.tmod 60
  let h := (h - s).tdiv 60
  let m := h.tmod 60
  let h := (h - m).tdiv 60
  let wd := mod (days + 4) 7
  let (y, days) := yearFromDays days
  let (i, days) := monthLoop y 11 0 days
  { yr := y, mon := i, day := days + 1, hr := h, min := m, sec := s, msec := ms, wday := wd }

/-! ## Division -/

theorem mod_eq {b : ℤ} (hb : 0 < b) (a : ℤ) : mod a b = a % b := by
  have hnonneg := Int.emod_nonneg a hb.ne'
  have hlt := Int.emod_lt_of_pos a hb
  unfold mod
  simp only [Int.tmod_eq_emod]
  split_ifs <;> omega

theorem floorDiv_eq {b : ℤ} (hb : 0 < b) (a : ℤ) : floorDiv a b = a / b := by
  have hmod := mod_eq hb a
  have hdiv : a - a % b = b * (a / b) := sub_eq_iff_eq_add.mpr (Int.mul_ediv_add_emod a b).symm
  unfold mod at hmod
  unfold floorDiv
  simp only at hmod ⊢
  rw [hmod, hdiv, Int.mul_tdiv_cancel_left _ hb.ne']

theorem tmod_eq_zero_iff {n : ℤ} (y : ℤ) : y.tmod n = 0 ↔ y % n = 0 := by
  rw [← Int.dvd_iff_tmod_eq_zero, Int.dvd_iff_emod_eq_zero]

theorem tzOffset_eq (zone : ℤ) : tzOffset zone = -zone := by
  unfold tzOffset
  rw [← Int.neg_mul, Int.mul_tdiv_cancel _ (by decide)]

/-! ## Years -/

theorem daysFromYear_eq (y : ℤ) : daysFromYear y =
    365 * (y - 1970) + (y - 1969) / 4 - (y - 1901) / 100 + (y - 1601) / 400 := by
  unfold daysFromYear
  rw [floorDiv_eq (by decide), floorDiv_eq (by decide), floorDiv_eq (by decide)]

/-- A year has as many days as there are from its start to that of the next one. -/
theorem daysFromYear_succ (y : ℤ) : daysFromYear (y + 1) = daysFromYear y + daysInYear y := by
  have h4 : (y + 1 - 1969) / 4 = (y - 1969) / 4 + if y % 4 = 0 then 1 else 0 := by
    split_ifs <;> omega
  have h100 : (y + 1 - 1901) / 100 = (y - 1901) / 100 + if y % 100 = 0 then 1 else 0 := by
    split_ifs <;> omega
  have h400 : (y + 1 - 1601) / 400 = (y - 1601) / 400 + if y % 400 = 0 then 1 else 0 := by
    split_ifs <;> omega
  rw [daysFromYear_eq, daysFromYear_eq, h4, h100, h400]
  unfold daysInYear
  simp only [tmod_eq_zero_iff]
  ring

theorem daysInYear_cases (y : ℤ) : daysInYear y = 365 ∨ daysInYear y = 366 := by
  unfold daysInYear
  simp only [tmod_eq_zero_iff]
  split_ifs <;> omega

theorem daysFromYear_mono {y y' : ℤ} (h : y ≤ y') : daysFromYear y ≤ daysFromYear y' := by
  rw [daysFromYear_eq, daysFromYear_eq]
  omega

/-- The first year of the loop is off by one at most. -/
theorem firstYear_bounds (d : ℤ) :
    daysFromYear (floorDiv (d * 10000) 3652425 + 1970 - 1) ≤ d ∧
      d < daysFromYear (floorDiv (d * 10000) 3652425 + 1970 + 2) := by
  rw [floorDiv_eq (by decide)]
  obtain ⟨k, hk⟩ : ∃ k, k = d * 10000 / 3652425 := ⟨_, rfl⟩
  have hlow : 3652425 * k ≤ d * 10000 := by omega
  have hhigh : d * 10000 < 3652425 * k + 3652425 := by omega
  rw [← hk, daysFromYear_eq, daysFromYear_eq]
  constructor <;> omega

theorem yearLoop_spec {d y : ℤ} (hlow : daysFromYear (y - 1) ≤ d)
    (hhigh : d < daysFromYear (y + 2)) :
    ∃ year days, yearLoop d 2 y = (year, days) ∧ daysFromYear year + days = d ∧ 0 ≤ days ∧
      days < daysInYear year := by
  have hprev := daysFromYear_succ (y - 1)
  have hthis := daysFromYear_succ y
  have hnext := daysFromYear_succ (y + 1)
  rw [sub_add_cancel] at hprev
  rw [add_assoc, one_add_one_eq_two] at hnext
  simp only [yearLoop]
  split_ifs with h0 h1 h2 h3 h4 h5
  · omega
  · exact ⟨y - 1, _, rfl, by omega, by omega, h2⟩
  · omega
  · exact ⟨y, _, rfl, by omega, by omega, h3⟩
  · omega
  · exact ⟨y + 1, _, rfl, by omega, by omega, h5⟩
  · omega

/-- The year of a day, and the days from its start. -/
theorem yearFromDays_spec (d : ℤ) :
    ∃ year days, yearFromDays d = (year, days) ∧ daysFromYear year + days = d ∧ 0 ≤ days ∧
      days < daysInYear year :=
  yearLoop_spec (firstYear_bounds d).1 (firstYear_bounds d).2

/-! ## Months -/

theorem daysInMonth_bounds (y : ℤ) {i : ℕ} (h : i < 12) :
    28 ≤ daysInMonth y i ∧ daysInMonth y i ≤ 31 := by
  have hyear := daysInYear_cases y
  unfold daysInMonth monthDays
  interval_cases i <;> simp
  omega

theorem daysOfMonths_year (y : ℤ) : daysOfMonths y 12 = daysInYear y := by
  simp [daysOfMonths, daysInMonth, monthDays]
  ring

theorem monthLoop_spec {y days : ℤ} {months i : ℕ} (h0 : 0 ≤ days)
    (h : daysOfMonths y i + days < daysOfMonths y 12) (hi : i + months = 11) :
    ∃ month rest, monthLoop y months i days = (month, rest) ∧ month < 12 ∧
      daysOfMonths y month + rest = daysOfMonths y i + days ∧ 0 ≤ rest ∧
      rest < daysInMonth y month := by
  induction months generalizing i days with
  | zero =>
    obtain rfl : i = 11 := by omega
    refine ⟨11, days, rfl, by omega, rfl, h0, ?_⟩
    simp only [daysOfMonths] at h ⊢
    omega
  | succ months ih =>
    unfold monthLoop
    split_ifs with hday
    · exact ⟨i, days, rfl, by omega, rfl, h0, hday⟩
    · have hsucc : daysOfMonths y (i + 1) = daysOfMonths y i + daysInMonth y i := rfl
      obtain ⟨month, rest, hloop, hmonth, hsum, hrest⟩ :=
        @ih (days - daysInMonth y i) (i + 1) (by omega) (by omega) (by omega)
      exact ⟨month, rest, hloop, hmonth, by omega, hrest⟩

/-! ## Fields -/

/-- The fields are those of a time of a day of the calendar. -/
structure Fields.Valid (tm : Fields) : Prop where
  wday : 0 ≤ tm.wday ∧ tm.wday < 7
  mon : 0 ≤ tm.mon ∧ tm.mon < 12
  day : 1 ≤ tm.day ∧ tm.day ≤ 31
  hr : 0 ≤ tm.hr ∧ tm.hr < 24
  min : 0 ≤ tm.min ∧ tm.min < 60
  sec : 0 ≤ tm.sec ∧ tm.sec < 60
  msec : 0 ≤ tm.msec ∧ tm.msec < 1000

/-- Valid fields are natural numbers, except for the year. -/
theorem Fields.Valid.exists_nat {tm : Fields} (h : tm.Valid) :
    ∃ (yr : ℤ) (wd mo d hr m s ms : ℕ), tm = ⟨wd, yr, mo, d, hr, m, s, ms⟩ ∧ wd < 7 ∧ mo < 12 ∧
      1 ≤ d ∧ d ≤ 31 ∧ hr < 24 ∧ m < 60 ∧ s < 60 ∧ ms < 1000 := by
  obtain ⟨hwday, hmon, hday, hhr, hmin, hsec, hmsec⟩ := h
  obtain ⟨wday, yr, mon, day, hr, min, sec, msec⟩ := tm
  simp only at hwday hmon hday hhr hmin hsec hmsec
  refine ⟨yr, wday.toNat, mon.toNat, day.toNat, hr.toNat, min.toNat, sec.toNat, msec.toNat, ?_,
    by omega, by omega, by omega, by omega, by omega, by omega, by omega, by omega⟩
  rw [Int.toNat_of_nonneg hwday.1, Int.toNat_of_nonneg hmon.1, Int.toNat_of_nonneg (by omega),
    Int.toNat_of_nonneg hhr.1, Int.toNat_of_nonneg hmin.1, Int.toNat_of_nonneg hsec.1,
    Int.toNat_of_nonneg hmsec.1]

theorem makeDay_of_month {y days : ℤ} {month : ℕ} (h : month < 12) :
    makeDay y month (days + 1) = daysFromYear y + daysOfMonths y month + days := by
  have hmod : mod (month : ℤ) 12 = month := by
    rw [mod_eq (by decide)]
    omega
  unfold makeDay
  simp only [hmod, sub_self, Int.zero_tdiv, add_zero, Int.toNat_natCast]
  ring

/-- The fields of a time, in terms of its days and of the milliseconds of the last one. -/
theorem destructDate_eq (zone time : ℤ) :
    ∃ (year : ℤ) (month : ℕ) (days : ℤ), month < 12 ∧ 0 ≤ days ∧ days < daysInMonth year month ∧
      daysFromYear year + daysOfMonths year month + days = time / 86400000 ∧
      daysOfMonths year month + days < daysInYear year ∧
      destructDate zone time false =
        { yr := year, mon := month, day := days + 1
          hr := time % 86400000 / 3600000
          min := time % 86400000 / 60000 % 60
          sec := time % 86400000 / 1000 % 60
          msec := time % 86400000 % 1000
          wday := (time / 86400000 + 4) % 7 } := by
  obtain ⟨year, rest, hyear, hdays, hrest, hlt⟩ := yearFromDays_spec (time / 86400000)
  obtain ⟨month, days, hloop, hmonth, hsum, hnonneg, hless⟩ := @monthLoop_spec _ _ 11 0 hrest
    (by rw [daysOfMonths_year]; simpa [daysOfMonths] using hlt) rfl
  have hmonths : daysOfMonths year month + days = rest := by simpa [daysOfMonths] using hsum
  refine ⟨year, month, days, hmonth, hnonneg, hless, by omega, by omega, ?_⟩
  obtain ⟨h, hh⟩ : ∃ h, h = time % 86400000 := ⟨_, rfl⟩
  have hquot : (time - h).tdiv 86400000 = time / 86400000 := by
    rw [hh, ← mod_eq (by decide)]
    exact floorDiv_eq (by decide) time
  have h0 : 0 ≤ h := by omega
  have hms : h.tmod 1000 = h % 1000 := Int.tmod_eq_emod_of_nonneg h0
  have hs : (h - h % 1000).tdiv 1000 = h / 1000 := by
    rw [Int.tdiv_eq_ediv_of_nonneg (by omega)]
    omega
  have hsec : (h / 1000).tmod 60 = h / 1000 % 60 := Int.tmod_eq_emod_of_nonneg (by omega)
  have hm : (h / 1000 - h / 1000 % 60).tdiv 60 = h / 60000 := by
    rw [Int.tdiv_eq_ediv_of_nonneg (by omega)]
    omega
  have hmin : (h / 60000).tmod 60 = h / 60000 % 60 := Int.tmod_eq_emod_of_nonneg (by omega)
  have hhr : (h / 60000 - h / 60000 % 60).tdiv 60 = h / 3600000 := by
    rw [Int.tdiv_eq_ediv_of_nonneg (by omega)]
    omega
  unfold destructDate
  simp only [Bool.false_eq_true, if_false, hquot, mod_eq (show (0 : ℤ) < 86400000 by decide),
    mod_eq (show (0 : ℤ) < 7 by decide), ← hh, hms, hs, hsec, hm, hmin, hhr, hyear, hloop]

theorem destructDate_valid (zone time : ℤ) : (destructDate zone time false).Valid := by
  obtain ⟨year, month, days, hmonth, h0, hlt, -, -, heq⟩ := destructDate_eq zone time
  have hbounds := daysInMonth_bounds year hmonth
  rw [heq]
  exact ⟨by simp only; omega, by simp only; omega, by simp only; omega, by simp only; omega,
    by simp only; omega, by simp only; omega, by simp only; omega⟩

theorem destructDate_msec (zone time : ℤ) :
    (destructDate zone time false).msec = time % 86400000 % 1000 := by
  obtain ⟨year, month, days, -, -, -, -, -, heq⟩ := destructDate_eq zone time
  rw [heq]

/-- The fields that a time is taken apart into make up the time again. -/
theorem fieldsTime_destructDate (zone time : ℤ) :
    fieldsTime zone (destructDate zone time false) false = time := by
  obtain ⟨year, month, days, hmonth, -, -, hsum, -, heq⟩ := destructDate_eq zone time
  rw [heq]
  unfold fieldsTime
  simp only [makeDay_of_month hmonth, hsum, Bool.false_eq_true, if_false]
  omega

/-- The fields of a local time are those of a time in UTC. -/
theorem destructDate_local (zone time : ℤ) :
    destructDate zone time true = destructDate zone (time + zone * 60000) false := by
  unfold destructDate
  simp only [if_true, Bool.false_eq_true, if_false, tzOffset_eq, neg_mul, sub_neg_eq_add]

theorem daysOfMonths_nonneg (y : ℤ) {i : ℕ} (h : i ≤ 12) : 0 ≤ daysOfMonths y i := by
  induction i with
  | zero => exact le_rfl
  | succ i ih =>
    have hmonth := (daysInMonth_bounds y (i := i) (by omega)).1
    have hprev := ih (by omega)
    simp only [daysOfMonths]
    omega

/-- The times from a year on are those of the days from its start on. -/
theorem le_year_iff (zone time year : ℤ) :
    year ≤ (destructDate zone time false).yr ↔ daysFromYear year ≤ time / 86400000 := by
  obtain ⟨yr, month, days, hmonth, h0, -, hsum, hlt, heq⟩ := destructDate_eq zone time
  have hmonths := daysOfMonths_nonneg yr hmonth.le
  have hnext := daysFromYear_succ yr
  rw [heq]
  change year ≤ yr ↔ _
  constructor
  · intro h
    have hstart := daysFromYear_mono h
    omega
  · intro h
    by_contra hless
    have hstart := daysFromYear_mono (show yr + 1 ≤ year by omega)
    omega

/-- The years from 0 to 9999 are those of the times from the start of the first one to the end
of the last one. -/
theorem destructDate_year_iff (zone time : ℤ) :
    0 ≤ (destructDate zone time false).yr ∧ (destructDate zone time false).yr ≤ 9999 ↔
      -62167219200000 ≤ time ∧ time ≤ 253402300799999 := by
  have hfirst := le_year_iff zone time 0
  have hlast := le_year_iff zone time 10000
  have hfirst_days : daysFromYear 0 = -719528 := rfl
  have hlast_days : daysFromYear 10000 = 2932897 := rfl
  omega

/-- The years of the valid times have six digits. -/
theorem destructDate_year_bounds (zone : ℤ) {time : ℤ}
    (hlow : -8640000000000000 ≤ time) (hhigh : time ≤ 8640000000000000) :
    -999999 ≤ (destructDate zone time false).yr ∧ (destructDate zone time false).yr ≤ 999999 := by
  have hfirst := le_year_iff zone time (-999999)
  have hlast := le_year_iff zone time 1000000
  have hfirst_days : daysFromYear (-999999) = -365961662 := rfl
  have hlast_days : daysFromYear 1000000 = 364522972 := rfl
  omega

end Njs.Date
