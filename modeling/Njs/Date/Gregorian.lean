import Mathlib.Data.List.Lex
import Njs.Date.Calendar

/-!
# The Gregorian calendar

The proleptic Gregorian calendar of ECMAScript, with `MakeDay`, `MakeTime` and `MakeDate` over the
integers. The functions of `njs_date.c` compute them where nothing wraps around.
-/

namespace Njs.Date

/-! ## Days -/

/-- A leap year. -/
def isLeap (y : ℤ) : Prop := y % 4 = 0 ∧ (y % 100 ≠ 0 ∨ y % 400 = 0)

instance (y : ℤ) : Decidable (isLeap y) := inferInstanceAs (Decidable (_ ∧ _))

/-- `DayFromYear`. -/
def dayFromYear (y : ℤ) : ℤ :=
  365 * (y - 1970) + (y - 1969) / 4 - (y - 1901) / 100 + (y - 1601) / 400

/-- The length of a month. -/
def monthLength (y : ℤ) : ℕ → ℤ
  | 1 => if isLeap y then 29 else 28
  | 3 | 5 | 8 | 10 => 30
  | _ => 31

/-- The days of a year before a month. -/
def daysBefore (y : ℤ) : ℕ → ℤ
  | 0 => 0
  | m + 1 => daysBefore y m + monthLength y m

/-- `MakeDay`. -/
def dayOf (year month date : ℤ) : ℤ :=
  dayFromYear (year + month / 12) + daysBefore (year + month / 12) (month % 12).toNat + date - 1

/-- `MakeTime`. -/
def timeOf (hour min sec ms : ℤ) : ℤ := hour * 3600000 + min * 60000 + sec * 1000 + ms

/-- `MakeDate` of `MakeDay` and `MakeTime`. -/
def Fields.time (tm : Fields) : ℤ :=
  dayOf tm.yr tm.mon tm.day * 86400000 + timeOf tm.hr tm.min tm.sec tm.msec

/-- A time of a `Date`. -/
def InRange (time : ℤ) : Prop := -8640000000000000 ≤ time ∧ time ≤ 8640000000000000

/-- The fields are those of a time of the calendar. -/
structure Civil (tm : Fields) : Prop where
  mon : 0 ≤ tm.mon ∧ tm.mon < 12
  day : 1 ≤ tm.day ∧ tm.day ≤ monthLength tm.yr tm.mon.toNat
  hr : 0 ≤ tm.hr ∧ tm.hr < 24
  min : 0 ≤ tm.min ∧ tm.min < 60
  sec : 0 ≤ tm.sec ∧ tm.sec < 60
  msec : 0 ≤ tm.msec ∧ tm.msec < 1000
  /-- The first of January 1970 was a Thursday. -/
  wday : tm.wday = (dayOf tm.yr tm.mon tm.day + 4) % 7

variable {tm tm' : Fields} {y y' : ℤ}

theorem daysInYear_eq (y : ℤ) : daysInYear y = if isLeap y then 366 else 365 := by
  unfold daysInYear isLeap
  simp only [tmod_eq_zero_iff]
  split_ifs <;> omega

theorem daysInMonth_eq (y : ℤ) {m : ℕ} (h : m < 12) : daysInMonth y m = monthLength y m := by
  unfold daysInMonth
  rw [daysInYear_eq]
  interval_cases m <;> simp [monthDays, monthLength]
  split_ifs <;> rfl

theorem daysOfMonths_eq (y : ℤ) {m : ℕ} (h : m ≤ 12) : daysOfMonths y m = daysBefore y m := by
  induction m with
  | zero => rfl
  | succ m ih => rw [daysOfMonths, daysBefore, ih (by omega), daysInMonth_eq y (by omega)]

theorem makeDay_eq (year month date : ℤ) : makeDay year month date = dayOf year month date := by
  have hmod := mod_eq (show (0 : ℤ) < 12 by decide) month
  have hquot : (month - month % 12).tdiv 12 = month / 12 := by
    rw [← hmod]
    exact floorDiv_eq (by decide) month
  unfold makeDay dayOf
  simp only [hmod, hquot, daysFromYear_eq]
  rw [daysOfMonths_eq _ (by omega)]
  rfl

/-- What the code puts together, in UTC, is the time of the fields. -/
theorem fieldsTime_eq (zone : ℤ) (tm : Fields) : fieldsTime zone tm false = tm.time := by
  unfold fieldsTime Fields.time timeOf
  simp only [Bool.false_eq_true, if_false, makeDay_eq]
  ring

/-! ## The order of times -/

theorem dayFromYear_succ (y : ℤ) : dayFromYear (y + 1) = dayFromYear y + daysBefore y 12 := by
  have hsucc := daysFromYear_succ y
  rw [daysFromYear_eq, daysFromYear_eq, ← daysOfMonths_year, daysOfMonths_eq y le_rfl] at hsucc
  exact hsucc

theorem dayFromYear_mono (h : y ≤ y') : dayFromYear y ≤ dayFromYear y' := by
  unfold dayFromYear
  omega

theorem monthLength_pos (y : ℤ) (m : ℕ) : 0 < monthLength y m := by
  unfold monthLength
  split
  · split_ifs <;> decide
  · decide
  · decide
  · decide
  · decide
  · decide

theorem daysBefore_mono (y : ℤ) {m m' : ℕ} (h : m ≤ m') : daysBefore y m ≤ daysBefore y m' := by
  induction m' with
  | zero =>
    obtain rfl : m = 0 := by omega
    exact le_rfl
  | succ m' ih =>
    rcases Nat.lt_or_ge m' m with hlt | hge
    · obtain rfl : m = m' + 1 := by omega
      exact le_rfl
    · have hpos := monthLength_pos y m'
      have hprev := ih hge
      rw [daysBefore]
      omega

/-- The day of a civil time, in its year. -/
theorem Civil.dayOf_eq (h : Civil tm) : dayOf tm.yr tm.mon tm.day =
    dayFromYear tm.yr + daysBefore tm.yr tm.mon.toNat + tm.day - 1 := by
  have hmon := h.mon
  have hquot : tm.mon / 12 = 0 := by omega
  have hmod : tm.mon % 12 = tm.mon := by omega
  unfold dayOf
  rw [hquot, hmod, add_zero]

/-- A civil time is in its month. -/
theorem Civil.day_lt (h : Civil tm) :
    daysBefore tm.yr tm.mon.toNat + tm.day - 1 < daysBefore tm.yr (tm.mon.toNat + 1) := by
  have hday := h.day
  rw [daysBefore]
  omega

/-- A civil time is in its day. -/
theorem Civil.timeOf_bounds (h : Civil tm) : 0 ≤ timeOf tm.hr tm.min tm.sec tm.msec ∧
    timeOf tm.hr tm.min tm.sec tm.msec < 86400000 := by
  obtain ⟨-, -, hhr, hmin, hsec, hmsec, -⟩ := h
  unfold timeOf
  constructor <;> omega

/-- The fields other than the day of the week. -/
def Fields.list (tm : Fields) : List ℤ := [tm.yr, tm.mon, tm.day, tm.hr, tm.min, tm.sec, tm.msec]

/-- The days of civil times are in the order of their years, months and days. -/
theorem Civil.dayOf_lt (h : Civil tm) (h' : Civil tm')
    (hlt : tm.yr < tm'.yr ∨ tm.yr = tm'.yr ∧ (tm.mon < tm'.mon ∨ tm.mon = tm'.mon ∧
      tm.day < tm'.day)) :
    dayOf tm.yr tm.mon tm.day < dayOf tm'.yr tm'.mon tm'.day := by
  have hday := h.day_lt
  have hmon := h.mon
  have hmon' := h'.mon
  have hfirst := h'.day.1
  rw [h.dayOf_eq, h'.dayOf_eq]
  rcases hlt with hyear | ⟨hyear, hmonth | ⟨hmonth, hdate⟩⟩
  · have hyears := dayFromYear_mono (show tm.yr + 1 ≤ tm'.yr by omega)
    have hmonths := daysBefore_mono tm.yr (show tm.mon.toNat + 1 ≤ 12 by omega)
    have hbefore := daysBefore_mono tm'.yr (Nat.zero_le tm'.mon.toNat)
    have hzero : daysBefore tm'.yr 0 = 0 := rfl
    rw [dayFromYear_succ] at hyears
    omega
  · have hmonths := daysBefore_mono tm.yr (show tm.mon.toNat + 1 ≤ tm'.mon.toNat by omega)
    rw [← hyear]
    omega
  · rw [← hyear, ← hmonth]
    omega

/-- Civil times are in the order of their fields. -/
theorem Civil.time_lt (h : Civil tm) (h' : Civil tm') (hlt : tm.list < tm'.list) :
    tm.time < tm'.time := by
  have htime := h.timeOf_bounds
  have htime' := h'.timeOf_bounds
  have hlex : (tm.yr < tm'.yr ∨ tm.yr = tm'.yr ∧ (tm.mon < tm'.mon ∨ tm.mon = tm'.mon ∧
      tm.day < tm'.day)) ∨ (tm.yr = tm'.yr ∧ tm.mon = tm'.mon ∧ tm.day = tm'.day ∧
        timeOf tm.hr tm.min tm.sec tm.msec < timeOf tm'.hr tm'.min tm'.sec tm'.msec) := by
    obtain ⟨-, -, hhr, hmin, hsec, hmsec, -⟩ := h
    obtain ⟨-, -, hhr', hmin', hsec', hmsec', -⟩ := h'
    simp only [Fields.list, List.cons_lt_cons_iff, List.not_lt_nil, and_false, or_false] at hlt
    unfold timeOf
    omega
  unfold Fields.time
  rcases hlex with hday | ⟨hyear, hmonth, hdate, hless⟩
  · have hdays := h.dayOf_lt h' hday
    omega
  · rw [← hyear, ← hmonth, ← hdate]
    omega

/-- Civil fields are determined by their time. -/
theorem Civil.eq_of_time_eq (h : Civil tm) (h' : Civil tm') (heq : tm.time = tm'.time) :
    tm = tm' := by
  have hlist : tm.list = tm'.list := by
    rcases lt_trichotomy tm.list tm'.list with hlt | hlist | hlt
    · exact absurd heq (h.time_lt h' hlt).ne
    · exact hlist
    · exact absurd heq (h'.time_lt h hlt).ne'
  have hwday := h.wday
  have hwday' := h'.wday
  obtain ⟨wday, yr, mon, day, hr, min, sec, msec⟩ := tm
  obtain ⟨wday', yr', mon', day', hr', min', sec', msec'⟩ := tm'
  simp only [Fields.list, List.cons.injEq, and_true] at hlist
  obtain ⟨rfl, rfl, rfl, rfl, rfl, rfl, rfl⟩ := hlist
  simp only at hwday hwday'
  rw [hwday, hwday']

end Njs.Date

/-!
## Dates in 64 bits

`njs_make_day` and `njs_make_date` compute with `int64_t`, and nothing is checked before the
result: sums and products wrap around.
-/

namespace Njs.Date

/-- The value of an `int64_t` that wraps around. -/
def int64 (x : ℤ) : ℤ := (x + 2 ^ 63) % 2 ^ 64 - 2 ^ 63

/-- The value fits `int64_t`. -/
def Fits (x : ℤ) : Prop := -2 ^ 63 ≤ x ∧ x < 2 ^ 63

instance (x : ℤ) : Decidable (Fits x) := inferInstanceAs (Decidable (_ ∧ _))

/-- `njs_floor_div`. -/
def floorDiv64 (a b : ℤ) : ℤ := (int64 (a - mod a b)).tdiv b

/-- `njs_days_from_year`. -/
def daysFromYear64 (y : ℤ) : ℤ :=
  int64 (int64 (int64 (int64 (365 * int64 (y - 1970)) + floorDiv64 (int64 (y - 1969)) 4)
    - floorDiv64 (int64 (y - 1901)) 100) + floorDiv64 (int64 (y - 1601)) 400)

/-- The loop of `njs_make_day`, which adds the days of the first months. -/
def addMonths64 (y days : ℤ) : ℕ → ℤ
  | 0 => days
  | i + 1 => int64 (addMonths64 y days i + daysInMonth y i)

/-- The year of `njs_make_day`. -/
def year64 (yr month : ℤ) : ℤ := int64 (yr + (int64 (month - mod month 12)).tdiv 12)

/-- `njs_make_day`. -/
def makeDay64 (yr month date : ℤ) : ℤ :=
  let mn := mod month 12
  let ym := year64 yr month
  int64 (int64 (addMonths64 ym (daysFromYear64 ym) mn.toNat + date) - 1)

/-- The time of some fields before it is clipped. -/
def fieldsTime64 (zone : ℤ) (tm : Fields) (isLocal : Bool) : ℤ :=
  let days := makeDay64 tm.yr tm.mon tm.day
  let time := int64 (int64 (int64 (int64 (int64 (int64 (tm.hr * 60) + tm.min) * 60) + tm.sec)
    * 1000) + tm.msec)
  let time := int64 (time + int64 (days * 86400000))
  if isLocal then int64 (time + int64 (tzOffset zone * 60000)) else time

/-- `njs_make_date`. -/
def makeDate64 (zone : ℤ) (tm : Fields) (isLocal : Bool) : Option ℤ :=
  timeclip (fieldsTime64 zone tm isLocal)

variable {a b : ℤ}

theorem int64_of_fits (h : Fits a) : int64 a = a := by
  unfold Fits at h
  unfold int64
  omega

theorem int64_fits (a : ℤ) : Fits (int64 a) := by
  unfold Fits int64
  omega

@[simp] theorem int64_int64 (a : ℤ) : int64 (int64 a) = int64 a := int64_of_fits (int64_fits a)

@[simp] theorem int64_add_left (a b : ℤ) : int64 (int64 a + b) = int64 (a + b) := by
  unfold int64
  omega

@[simp] theorem int64_add_right (a b : ℤ) : int64 (a + int64 b) = int64 (a + b) := by
  unfold int64
  omega

@[simp] theorem int64_sub_left (a b : ℤ) : int64 (int64 a - b) = int64 (a - b) := by
  unfold int64
  omega

theorem int64_eq_iff (a b : ℤ) : int64 a = int64 b ↔ (a - b) % 2 ^ 64 = 0 := by
  unfold int64
  omega

@[simp] theorem int64_mul_left (a b : ℤ) : int64 (int64 a * b) = int64 (a * b) := by
  have hdvd : (2 : ℤ) ^ 64 ∣ int64 a - a := by
    unfold int64
    omega
  obtain ⟨k, hk⟩ := hdvd
  have hmul : int64 a * b - a * b = 2 ^ 64 * (k * b) := by
    rw [← sub_mul, hk, mul_assoc]
  rw [int64_eq_iff, hmul, Int.mul_emod_right]

@[simp] theorem int64_mul_right (a b : ℤ) : int64 (a * int64 b) = int64 (a * b) := by
  rw [mul_comm, int64_mul_left, mul_comm]

/-- `njs_floor_div` of a number that is not among the least. -/
theorem floorDiv64_eq (hb : 0 < b) (ha : -2 ^ 63 + b ≤ a) (hlt : a < 2 ^ 63) :
    floorDiv64 a b = a / b := by
  have hlow := Int.emod_nonneg a hb.ne'
  have hhigh := Int.emod_lt_of_pos a hb
  unfold floorDiv64
  rw [mod_eq hb, int64_of_fits ⟨by omega, by omega⟩, ← mod_eq hb]
  exact floorDiv_eq hb a

/-- A year whose days are computed without a wrap in the divisions. -/
def Tame (y : ℤ) : Prop := -2 ^ 63 + 2400 ≤ y ∧ y < 2 ^ 63

theorem daysFromYear64_eq (h : Tame a) : daysFromYear64 a = int64 (dayFromYear a) := by
  obtain ⟨hlow, hhigh⟩ := h
  unfold daysFromYear64 dayFromYear
  rw [int64_of_fits (show Fits (a - 1969) from ⟨by omega, by omega⟩),
    int64_of_fits (show Fits (a - 1901) from ⟨by omega, by omega⟩),
    int64_of_fits (show Fits (a - 1601) from ⟨by omega, by omega⟩),
    floorDiv64_eq (by decide) (by omega) (by omega),
    floorDiv64_eq (by decide) (by omega) (by omega),
    floorDiv64_eq (by decide) (by omega) (by omega)]
  simp only [int64_mul_right, int64_add_left, int64_sub_left]

theorem addMonths64_eq (y days : ℤ) (m : ℕ) :
    int64 (addMonths64 y days m) = int64 (days + daysOfMonths y m) := by
  induction m with
  | zero => simp [addMonths64, daysOfMonths]
  | succ m ih =>
    rw [addMonths64, daysOfMonths, int64_int64, ← int64_add_left, ih, int64_add_left, add_assoc]

/-- `njs_make_day`, up to a wrap. -/
theorem makeDay64_eq {yr month : ℤ} (date : ℤ) (h : Tame (year64 yr month)) :
    makeDay64 yr month date = int64 (dayFromYear (year64 yr month) +
      daysBefore (year64 yr month) (month % 12).toNat + date - 1) := by
  have hmod := mod_eq (show (0 : ℤ) < 12 by decide) month
  have hmonths := daysOfMonths_eq (year64 yr month) (show (month % 12).toNat ≤ 12 by omega)
  unfold makeDay64
  simp only [hmod]
  rw [int64_sub_left, ← int64_sub_left, ← int64_add_left, addMonths64_eq, hmonths,
    daysFromYear64_eq h]
  simp only [int64_add_left, int64_sub_left]

/-- The time of some fields, with another year. -/
def Fields.timeIn (tm : Fields) (year : ℤ) : ℤ :=
  (dayFromYear year + daysBefore year (tm.mon % 12).toNat + tm.day - 1) * 86400000 +
    timeOf tm.hr tm.min tm.sec tm.msec

theorem Fields.timeIn_year (tm : Fields) : tm.timeIn (tm.yr + tm.mon / 12) = tm.time := rfl

/-- The shift from a time base to UTC. -/
def utcShift (zone : ℤ) (isLocal : Bool) : ℤ := if isLocal then zone * 60000 else 0

/-- `njs_make_date` before the time is clipped, up to a wrap. -/
theorem fieldsTime64_eq (zone : ℤ) {tm : Fields} (isLocal : Bool)
    (h : Tame (year64 tm.yr tm.mon)) : fieldsTime64 zone tm isLocal =
      int64 (tm.timeIn (year64 tm.yr tm.mon) - utcShift zone isLocal) := by
  have hshift : tzOffset zone * 60000 = -(zone * 60000) := by
    rw [tzOffset_eq]
    ring
  have htime : ((tm.hr * 60 + tm.min) * 60 + tm.sec) * 1000 + tm.msec =
      timeOf tm.hr tm.min tm.sec tm.msec := by
    unfold timeOf
    ring
  unfold fieldsTime64 utcShift Fields.timeIn
  simp only [int64_add_left, int64_mul_left, int64_add_right, makeDay64_eq tm.day h, htime,
    hshift]
  cases isLocal with
  | true =>
    rw [if_pos rfl, if_pos rfl]
    congr 1
    ring
  | false =>
    rw [if_neg Bool.false_ne_true, if_neg Bool.false_ne_true]
    congr 1
    ring

/-- The year modulo `2 ^ 64` that a month leads to. From the least months it is another one. -/
def wrappedYear (yr month : ℤ) : ℤ :=
  int64 (yr + month / 12 + if month < -2 ^ 63 + 8 then 1537228672809129301 else 0)

theorem year64_eq (yr : ℤ) {month : ℤ} (h : Fits month) :
    year64 yr month = wrappedYear yr month := by
  have hmod := mod_eq (show (0 : ℤ) < 12 by decide) month
  obtain ⟨hlow, hhigh⟩ := h
  unfold year64 wrappedYear
  rw [hmod]
  split_ifs with hleast
  · have hwrap : int64 (month - month % 12) = 9223372036854775804 := by
      unfold int64
      omega
    have hquot : Int.tdiv 9223372036854775804 12 = 768614336404564650 := by decide
    rw [hwrap, hquot]
    congr 1
    omega
  · have hquot : (month - month % 12).tdiv 12 = month / 12 := by
      rw [← hmod]
      exact floorDiv_eq (by decide) month
    have hexact : int64 (month - month % 12) = month - month % 12 :=
      int64_of_fits ⟨by omega, by omega⟩
    rw [hexact, hquot, add_zero]

/-- The year does not wrap around. -/
theorem year64_of_fits {yr month : ℤ} (hmonth : -2 ^ 63 + 8 ≤ month) (hlt : month < 2 ^ 63)
    (h : Fits (yr + month / 12)) : year64 yr month = yr + month / 12 := by
  rw [year64_eq yr ⟨by omega, hlt⟩, wrappedYear, if_neg (by omega), add_zero, int64_of_fits h]

theorem daysBefore_bounds (y : ℤ) {m : ℕ} (h : m ≤ 12) :
    0 ≤ daysBefore y m ∧ daysBefore y m ≤ 366 := by
  have hlow := daysBefore_mono y (Nat.zero_le m)
  have hhigh := daysBefore_mono y h
  have hzero : daysBefore y 0 = 0 := rfl
  have hyear := daysInYear_cases y
  rw [← daysOfMonths_eq y le_rfl, daysOfMonths_year] at hhigh
  omega

/-- The fields are numbers of `int64_t`. -/
structure FieldsFit (tm : Fields) : Prop where
  yr : Fits tm.yr
  mon : Fits tm.mon
  day : Fits tm.day
  hr : Fits tm.hr
  min : Fits tm.min
  sec : Fits tm.sec
  msec : Fits tm.msec

/-- Where the time is not too large, the year is not. -/
theorem FieldsFit.year_bounds {tm : Fields} (h : FieldsFit tm) (hlow : -2 ^ 64 ≤ tm.time)
    (hhigh : tm.time ≤ 2 ^ 64) :
    -2 ^ 60 ≤ tm.yr + tm.mon / 12 ∧ tm.yr + tm.mon / 12 ≤ 2 ^ 60 := by
  obtain ⟨-, -, hday, hhr, hmin, hsec, hmsec⟩ := h
  have hbefore := daysBefore_bounds (tm.yr + tm.mon / 12)
    (show (tm.mon % 12).toNat ≤ 12 by omega)
  unfold Fits at hday hhr hmin hsec hmsec
  unfold Fields.time dayOf timeOf dayFromYear at hlow hhigh
  generalize tm.yr + tm.mon / 12 = year at *
  generalize daysBefore year (tm.mon % 12).toNat = before at *
  constructor <;> omega

/-- A time that is not too large is computed without a wrap, unless the month is one of the least
numbers. -/
theorem fieldsTime64_of_fits (zone : ℤ) {tm : Fields} (isLocal : Bool) (h : FieldsFit tm)
    (hmonth : -2 ^ 63 + 8 ≤ tm.mon) (hlow : -2 ^ 64 ≤ tm.time) (hhigh : tm.time ≤ 2 ^ 64)
    (hfits : Fits (tm.time - utcShift zone isLocal)) :
    fieldsTime64 zone tm isLocal = tm.time - utcShift zone isLocal := by
  have hyear := h.year_bounds hlow hhigh
  have hexact := @year64_of_fits tm.yr tm.mon hmonth h.mon.2 ⟨by omega, by omega⟩
  have htame : Tame (year64 tm.yr tm.mon) := by
    rw [hexact]
    exact ⟨by omega, by omega⟩
  rw [fieldsTime64_eq zone isLocal htame, hexact, tm.timeIn_year, int64_of_fits hfits]

end Njs.Date
