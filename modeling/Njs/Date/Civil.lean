import Njs.Date.Gregorian

/-!
# Times and civil dates

`njs_destruct_date` and `njs_make_date` are inverse to each other on the times of `Date` and the
civil fields. The loop that looks for the year is not bounded in the source; `YearSearch` has
its runs that end.
-/

namespace Njs.Date

variable {tm tm' : Fields} {d y : ℤ} {result : ℤ × ℤ}

/-- The loop of `njs_year_from_days` ends with a year and the days from its start. -/
inductive YearSearch (d : ℤ) : ℤ → ℤ × ℤ → Prop
  | down (y : ℤ) (result : ℤ × ℤ) (hless : d - daysFromYear y < 0)
    (hrest : YearSearch d (y - 1) result) : YearSearch d y result
  | found (y : ℤ) (hle : 0 ≤ d - daysFromYear y) (hlt : d - daysFromYear y < daysInYear y) :
    YearSearch d y (y, d - daysFromYear y)
  | up (y : ℤ) (result : ℤ × ℤ) (hle : 0 ≤ d - daysFromYear y)
    (hlt : daysInYear y ≤ d - daysFromYear y) (hrest : YearSearch d (y + 1) result) :
    YearSearch d y result

/-- The loop that is bounded finds what the loop of the source does, where it finds a year. -/
theorem yearSearch_yearLoop {steps : ℕ} (h0 : 0 ≤ (yearLoop d steps y).2)
    (hlt : (yearLoop d steps y).2 < daysInYear (yearLoop d steps y).1) :
    YearSearch d y (yearLoop d steps y) := by
  induction steps generalizing y with
  | zero => exact .found y h0 hlt
  | succ steps ih =>
    unfold yearLoop at h0 hlt ⊢
    split_ifs at h0 hlt ⊢ with hless hfound
    · exact .down y _ hless (ih h0 hlt)
    · exact .found y (by omega) hfound
    · exact .up y _ (by omega) (by omega) (ih h0 hlt)

/-- The loop of the source ends. -/
theorem yearSearch_yearFromDays (d : ℤ) :
    YearSearch d (floorDiv (d * 10000) 3652425 + 1970) (yearFromDays d) := by
  obtain ⟨year, days, hfound, -, h0, hlt⟩ := yearFromDays_spec d
  apply yearSearch_yearLoop
  · change 0 ≤ (yearFromDays d).2
    rw [hfound]
    exact h0
  · change (yearFromDays d).2 < daysInYear (yearFromDays d).1
    rw [hfound]
    exact hlt

/-- A time is taken apart into civil fields, and it is the time of these. -/
theorem destructDate_civil (zone time : ℤ) :
    Civil (destructDate zone time false) ∧ (destructDate zone time false).time = time := by
  have htime := fieldsTime_destructDate zone time
  rw [fieldsTime_eq] at htime
  obtain ⟨year, month, days, hmonth, h0, hlt, hsum, -, heq⟩ := destructDate_eq zone time
  rw [daysFromYear_eq, daysOfMonths_eq year hmonth.le] at hsum
  rw [daysInMonth_eq year hmonth] at hlt
  have hday : dayOf year month (days + 1) = time / 86400000 := by
    have hmod := @makeDay_of_month year days month hmonth
    rw [makeDay_eq, daysFromYear_eq, daysOfMonths_eq year hmonth.le] at hmod
    rw [hmod, hsum]
  refine ⟨?_, htime⟩
  rw [heq]
  exact ⟨by simp only; omega, by simp only [Int.toNat_natCast]; omega, by simp only; omega,
    by simp only; omega, by simp only; omega, by simp only; omega, by simp only [hday]⟩

/-- Civil fields are those of their time. -/
theorem Civil.destructDate_time (h : Civil tm) (zone : ℤ) :
    destructDate zone tm.time false = tm := by
  obtain ⟨hcivil, htime⟩ := destructDate_civil zone tm.time
  exact hcivil.eq_of_time_eq h htime

/-- The fields of a time in the range of `Date` are small. -/
theorem Civil.fit (h : Civil tm) (hlow : -2 ^ 63 ≤ tm.time) (hhigh : tm.time < 2 ^ 63) :
    FieldsFit tm := by
  have hyear : -2 ^ 40 ≤ tm.yr ∧ tm.yr ≤ 2 ^ 40 := by
    have hbounds := h.timeOf_bounds
    have hday := h.day_lt
    have hfirst := h.day.1
    have hmonth := daysBefore_bounds tm.yr (show tm.mon.toNat + 1 ≤ 12 by have := h.mon; omega)
    have hbefore := daysBefore_bounds tm.yr (show tm.mon.toNat ≤ 12 by have := h.mon; omega)
    have hdays := h.dayOf_eq
    unfold Fields.time at hlow hhigh
    unfold dayFromYear at hdays
    constructor <;> omega
  have hlength : monthLength tm.yr tm.mon.toNat ≤ 366 := by
    have hmonth := daysBefore_bounds tm.yr (show tm.mon.toNat + 1 ≤ 12 by have := h.mon; omega)
    have hbefore := daysBefore_bounds tm.yr (show tm.mon.toNat ≤ 12 by have := h.mon; omega)
    rw [daysBefore] at hmonth
    omega
  obtain ⟨hmon, hday, hhr, hmin, hsec, hmsec, -⟩ := h
  constructor <;> unfold Fits <;> omega

/-- In 64 bits too, civil fields whose time fits are put together to their time. -/
theorem Civil.fieldsTime64_time (h : Civil tm) (hfits : Fits tm.time) (zone : ℤ) :
    fieldsTime64 zone tm false = tm.time := by
  obtain ⟨hlow, hhigh⟩ := hfits
  have hmon := h.mon
  have hshift : tm.time - utcShift zone false = tm.time := sub_zero _
  have htime := fieldsTime64_of_fits zone false (h.fit hlow hhigh) (by omega) (by omega)
    (by omega) (by rw [hshift]; exact ⟨hlow, hhigh⟩)
  rw [htime, hshift]

theorem InRange.fits {time : ℤ} (h : InRange time) : Fits time := by
  obtain ⟨hlow, hhigh⟩ := h
  exact ⟨by omega, by omega⟩

theorem timeclip_of_inRange {time : ℤ} (h : InRange time) : timeclip time = some time := by
  obtain ⟨hlow, hhigh⟩ := h
  unfold timeclip
  rw [if_neg (by omega)]

theorem timeclip_of_not_inRange {time : ℤ} (h : ¬InRange time) : timeclip time = none := by
  unfold InRange at h
  unfold timeclip
  rw [if_pos (by omega)]

theorem timeclip_eq_some {time result : ℤ} (h : timeclip time = some result) :
    result = time := by
  by_cases hrange : InRange time
  · rw [timeclip_of_inRange hrange] at h
    exact (Option.some.inj h).symm
  · rw [timeclip_of_not_inRange hrange] at h
    cases h

theorem Civil.makeDate64_eq (h : Civil tm) (hrange : InRange tm.time) (zone : ℤ) :
    makeDate64 zone tm false = some tm.time := by
  unfold makeDate64
  rw [h.fieldsTime64_time hrange.fits, timeclip_of_inRange hrange]

/-! ## The order of the fields -/

/-- A time of `Date` is taken apart into civil fields, in a loop that ends, and is put together
again from them. -/
def TakenApart (zone time : ℤ) : Prop :=
  InRange time →
    YearSearch ((time - mod time 86400000).tdiv 86400000)
      (floorDiv ((time - mod time 86400000).tdiv 86400000 * 10000) 3652425 + 1970)
      (yearFromDays ((time - mod time 86400000).tdiv 86400000)) ∧
    Civil (destructDate zone time false) ∧
    makeDate64 zone (destructDate zone time false) false = some time

/-- Civil fields whose time is one of `Date` are put together to a time that is taken apart into
them. -/
def PutTogether (zone : ℤ) (tm : Fields) : Prop :=
  Civil tm → InRange tm.time →
    ∃ time, makeDate64 zone tm false = some time ∧ destructDate zone time false = tm

/-- The times of civil fields are in the order of the fields. -/
def Ordered (zone : ℤ) (tm tm' : Fields) : Prop :=
  Civil tm → Civil tm' → Fits tm.yr → Fits tm'.yr → tm.list < tm'.list →
    ∀ time time', makeDate64 zone tm false = some time →
      makeDate64 zone tm' false = some time' → time < time'

/-- The times of civil fields are not both wrapped around into the range of `Date` in the wrong
order. -/
def OrderWraps (tm tm' : Fields) : Prop :=
  Civil tm → Civil tm' → Fits tm.yr → Fits tm'.yr → tm.list < tm'.list →
    Tame tm.yr ∧ Tame tm'.yr ∧
      ¬(InRange (int64 tm.time) ∧ InRange (int64 tm'.time) ∧ int64 tm'.time ≤ int64 tm.time)

theorem takenApart (zone time : ℤ) : TakenApart zone time := by
  intro hrange
  obtain ⟨hcivil, htime⟩ := destructDate_civil zone time
  rw [← htime] at hrange
  have hmake := hcivil.makeDate64_eq hrange zone
  rw [htime] at hmake
  exact ⟨yearSearch_yearFromDays _, hcivil, hmake⟩

theorem putTogether (zone : ℤ) (tm : Fields) : PutTogether zone tm := by
  intro hcivil hrange
  exact ⟨tm.time, hcivil.makeDate64_eq hrange zone, hcivil.destructDate_time zone⟩

/-- The time of civil fields wraps around. -/
theorem Civil.fieldsTime64_wraps (h : Civil tm) (htame : Tame tm.yr) (zone : ℤ) :
    fieldsTime64 zone tm false = int64 tm.time := by
  have hmon := h.mon
  have hyear : year64 tm.yr tm.mon = tm.yr + tm.mon / 12 := by
    apply year64_of_fits (by omega) (by omega)
    obtain ⟨hlow, hhigh⟩ := htame
    exact ⟨by omega, by omega⟩
  have hsame : tm.yr + tm.mon / 12 = tm.yr := by omega
  have htame' : Tame (year64 tm.yr tm.mon) := by
    rw [hyear, hsame]
    exact htame
  have htime := fieldsTime64_eq zone false htame'
  rw [htime, hyear, tm.timeIn_year]
  unfold utcShift
  rw [if_neg Bool.false_ne_true, sub_zero]

theorem makeDate64_eq_some {zone time : ℤ} (h : Civil tm) (htame : Tame tm.yr) :
    makeDate64 zone tm false = some time ↔ InRange (int64 tm.time) ∧ time = int64 tm.time := by
  unfold makeDate64
  rw [h.fieldsTime64_wraps htame]
  by_cases hrange : InRange (int64 tm.time)
  · rw [timeclip_of_inRange hrange, Option.some.injEq]
    exact ⟨fun h => ⟨hrange, h.symm⟩, fun h => h.2.symm⟩
  · rw [timeclip_of_not_inRange hrange]
    constructor
    · rintro ⟨⟩
    · rintro ⟨h, -⟩
      exact absurd h hrange

theorem ordered_iff (zone : ℤ) (htame : Tame tm.yr) (htame' : Tame tm'.yr) :
    Ordered zone tm tm' ↔ OrderWraps tm tm' := by
  unfold Ordered OrderWraps
  apply forall₅_congr
  intro hcivil hcivil' hfits hfits' hlt
  constructor
  · intro h
    refine ⟨htame, htame', ?_⟩
    rintro ⟨hrange, hrange', hle⟩
    have hless := h _ _ ((makeDate64_eq_some hcivil htame).mpr ⟨hrange, rfl⟩)
      ((makeDate64_eq_some hcivil' htame').mpr ⟨hrange', rfl⟩)
    omega
  · rintro ⟨-, -, h⟩ time time' htime htime'
    obtain ⟨hrange, rfl⟩ := (makeDate64_eq_some hcivil htame).mp htime
    obtain ⟨hrange', rfl⟩ := (makeDate64_eq_some hcivil' htame').mp htime'
    by_contra hnot
    exact h ⟨hrange, hrange', by omega⟩

/-- Times and civil fields are taken apart and put together as they should, and the times are in
the order of the fields, if no times wrap around into the range of `Date` in the wrong order.
Unless a year is one of the least numbers, they are not otherwise. -/
theorem civil_dates_iff (zone time : ℤ) (tm tm' : Fields) :
    (OrderWraps tm tm' →
      TakenApart zone time ∧ PutTogether zone tm ∧ Ordered zone tm tm') ∧
    (Tame tm.yr ∧ Tame tm'.yr →
      TakenApart zone time ∧ PutTogether zone tm ∧ Ordered zone tm tm' → OrderWraps tm tm') := by
  constructor
  · intro h
    refine ⟨takenApart zone time, putTogether zone tm, ?_⟩
    intro hcivil hcivil' hfits hfits' hlt
    obtain ⟨htame, htame', -⟩ := h hcivil hcivil' hfits hfits' hlt
    exact (ordered_iff zone htame htame').mpr h hcivil hcivil' hfits hfits' hlt
  · rintro ⟨htame, htame'⟩ ⟨-, -, hordered⟩
    exact (ordered_iff zone htame htame').mp hordered

/-- The fields of the time `2 ^ 64`. -/
def farFields : Fields := destructDate 0 (2 ^ 64) false

/-- The third of April in the year 584556019 comes before the second millisecond of 1970. -/
theorem not_civil_dates :
    ¬∀ (zone time : ℤ) (tm tm' : Fields),
      TakenApart zone time ∧ PutTogether zone tm ∧ Ordered zone tm tm' := by
  intro h
  have hfar := destructDate_civil 0 (2 ^ 64)
  have hnear := destructDate_civil 0 1
  have hless := (h 0 0 (destructDate 0 1 false) farFields).2.2 hnear.1 hfar.1 (by decide)
    (by decide) (by decide) 1 0 (by decide) (by decide)
  exact absurd hless (by decide)

end Njs.Date
