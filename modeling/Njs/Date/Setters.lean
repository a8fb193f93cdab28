import Mathlib.Tactic.NormNum.GCD
import Njs.Date.Methods

/-!
# Setters of dates

A setter takes a date apart in its own time base. The date is put together in local time
whatever the setter is, so that the setters of UTC are right where local time is UTC only.
-/

namespace Njs.Date

/-- A time zone that is some minutes from UTC. The numbers of milliseconds of the local times of
dates are numbers that a double holds. -/
structure TimeZone where
  minutes : ℤ
  low : -367199254740992 ≤ minutes * 60000
  high : minutes * 60000 ≤ 367199254740992

variable {tm : Fields} {zone : TimeZone} {time i : ℤ} {isLocal : Bool} {values : List ℤ}

/-- The field values from an index on are those of the fields. -/
def Stores (tm : Fields) (i : ℕ) (values : List ℤ) : Prop :=
  ∀ k v, values[k]? = some v → v = tm.get (i + k)

/-- The time that ECMAScript prescribes for a setter of a date with some fields. -/
def newTime (zone : ℤ) (f : DateField) (isLocal : Bool) (values : List ℤ) (tm : Fields) : ℤ :=
  (tm.setAll f.index (values.take f.count)).time - utcShift zone isLocal

/-- A setter stores and returns the time that ECMAScript prescribes. The getters in its time base
have the fields of that time. Nothing changes if the fields are set to what they are. -/
structure SetsRight (zone time : ℤ) (f : DateField) (isLocal : Bool) (values : List ℤ)
    (tm : Fields) : Prop where
  result : prototypeSetFields zone (f.setter isLocal) (some time) (numbers values) =
    .ok (some (newTime zone f isLocal values tm))
  getters : ∃ tm', Civil tm' ∧
    tm'.time = newTime zone f isLocal values tm + utcShift zone isLocal ∧
    ∀ g : DateField, prototypeGetField zone (g.getter isLocal)
      (some (newTime zone f isLocal values tm)) = some (tm'.get g.index)
  unchanged : Stores tm f.index (values.take f.count) → newTime zone f isLocal values tm = time

/-! ## Time bases -/

/-- Local times are taken apart as times of UTC are. -/
theorem destructDate_base (zone time : ℤ) (isLocal : Bool) :
    destructDate zone time isLocal = destructDate zone (time + utcShift zone isLocal) false := by
  cases isLocal with
  | true => exact destructDate_local zone time
  | false =>
    unfold utcShift
    rw [if_neg Bool.false_ne_true, add_zero]

theorem Civil.destructDate_eq (h : Civil tm) {zone : ℤ}
    (htime : tm.time = time + utcShift zone isLocal) : destructDate zone time isLocal = tm := by
  rw [destructDate_base, ← htime]
  exact h.destructDate_time zone

/-- The seconds and milliseconds of a time are the same in all time zones. -/
theorem Civil.sec_msec (h : Civil tm) :
    tm.sec = tm.time % 60000 / 1000 ∧ tm.msec = tm.time % 1000 := by
  have hsec := h.sec
  have hmsec := h.msec
  unfold Fields.time timeOf
  constructor <;> omega

/-- The getters have the fields of the time in their time base. -/
theorem getField_eq (h : Civil tm) {zone : ℤ} (htime : tm.time = time + utcShift zone isLocal)
    (g : DateField) :
    prototypeGetField zone (g.getter isLocal) (some time) = some (tm.get g.index) := by
  have hfields := h.destructDate_eq htime
  obtain ⟨hother, hotherTime⟩ := destructDate_civil zone (time + utcShift zone !isLocal)
  rw [← destructDate_base] at hother hotherTime
  have hsame : (destructDate zone time !isLocal).time % 60000 = tm.time % 60000 := by
    rw [hotherTime, htime]
    unfold utcShift
    split_ifs <;> omega
  obtain ⟨hsec, hmsec⟩ := h.sec_msec
  obtain ⟨hsec', hmsec'⟩ := hother.sec_msec
  have hsecs : (destructDate zone time !isLocal).sec = tm.sec := by omega
  have hmsecs : (destructDate zone time !isLocal).msec = tm.msec := by omega
  unfold prototypeGetField
  rw [Option.map_some]
  congr 1
  cases g <;> cases isLocal <;>
    first
      | exact congrArg (Fields.get · _) hfields
      | exact hsecs
      | exact hmsecs

/-! ## Setting fields -/

theorem Fields.set_get (tm : Fields) (i : ℕ) : tm.set i (tm.get i) = tm := by
  match i with
  | 0 | 1 | 2 | 3 | 4 | 5 | 6 | _ + 7 => rfl

theorem Stores.setAll_eq {i : ℕ} (h : Stores tm i values) : tm.setAll i values = tm := by
  induction values generalizing i with
  | nil => rfl
  | cons v values ih =>
    have hv : v = tm.get i := h 0 v rfl
    have hrest : Stores tm (i + 1) values := by
      intro k w hw
      have heq := h (k + 1) w hw
      rw [show i + 1 + k = i + (k + 1) by omega]
      exact heq
    rw [Fields.setAll, hv, tm.set_get]
    exact ih hrest

theorem FieldsFit.set (h : FieldsFit tm) (i : ℕ) {v : ℤ} (hv : Fits v) :
    FieldsFit (tm.set i v) := by
  obtain ⟨hyr, hmon, hday, hhr, hmin, hsec, hmsec⟩ := h
  unfold Fields.set
  split <;> constructor <;> assumption

theorem FieldsFit.setAll (h : FieldsFit tm) (i : ℕ) (hvalues : ∀ v ∈ values, Fits v) :
    FieldsFit (tm.setAll i values) := by
  induction values generalizing tm i with
  | nil => exact h
  | cons v values ih =>
    rw [Fields.setAll]
    apply ih
    · exact h.set i (hvalues v List.mem_cons_self)
    · intro w hw
      exact hvalues w (List.mem_cons_of_mem v hw)

/-- The fields of the local time of a date fit. -/
theorem Civil.fit_local (h : Civil tm) (hrange : InRange time)
    (htime : tm.time = time + utcShift zone.minutes isLocal) : FieldsFit tm := by
  obtain ⟨hlow, hhigh⟩ := hrange
  have hzone := zone.low
  have hzone' := zone.high
  unfold utcShift at htime
  apply h.fit
  · split_ifs at htime <;> omega
  · split_ifs at htime <;> omega

/-! ## Months that wrap around -/

/-- Years differ by their leap day. -/
theorem daysBefore_near (y y' : ℤ) (m : ℕ) : daysBefore y m ≤ daysBefore y' m + 1 := by
  have hone : ∀ m, monthLength y m ≤ monthLength y' m + if m = 1 then 1 else 0 := by
    intro m
    unfold monthLength
    split
    · split_ifs <;> omega
    all_goals split_ifs <;> omega
  have hle : daysBefore y m ≤ daysBefore y' m + if 1 < m then 1 else 0 := by
    induction m with
    | zero => simp [daysBefore]
    | succ m ih =>
      have hm := hone m
      rw [daysBefore, daysBefore]
      split_ifs at hm ih ⊢ <;> omega
  split_ifs at hle <;> omega

/-- From one of the least months, another year is computed. -/
theorem year64_of_least {yr month : ℤ} (hfits : Fits month) (hmonth : month < -2 ^ 63 + 8)
    (hlow : -2 ^ 60 ≤ yr + month / 12) (hhigh : yr + month / 12 ≤ 2 ^ 60) :
    year64 yr month = yr + month / 12 + 1537228672809129301 := by
  rw [year64_eq yr hfits, wrappedYear, if_pos hmonth, int64_of_fits ⟨by omega, by omega⟩]

/-- A number of minutes whose milliseconds are none modulo `2 ^ 64`. -/
theorem dvd_of_minutes {e : ℤ} (h : 2 ^ 5 * (1875 * e) % 2 ^ 64 = 0) : 2 ^ 59 ∣ e := by
  have hpow : (2 : ℤ) ^ 64 = 2 ^ 5 * 2 ^ 59 := by norm_num
  have hgcd : Int.gcd (2 ^ 59) 1875 = 1 := by norm_num
  rw [hpow] at h
  have hdvd : (2 : ℤ) ^ 59 ∣ 1875 * e :=
    Int.dvd_of_mul_dvd_mul_left (by norm_num) (Int.dvd_of_emod_eq_zero h)
  exact Int.dvd_of_dvd_mul_right_of_gcd_one hdvd hgcd

/-- The days of the year that is computed do not make up for the year that is not. -/
theorem year_wraps (days rest : ℤ) {before before' v w y y' : ℤ}
    (hy : 561461243528488408720 ≤ y' - y) (hy' : y' - y ≤ 561461243528488408722)
    (hbefore : before ≤ before' + 1) (hbefore' : before' ≤ before + 1)
    (hv : -367199254740992 ≤ v * 60000) (hv' : v * 60000 ≤ 367199254740992)
    (hw : -367199254740992 ≤ w * 60000) (hw' : w * 60000 ≤ 367199254740992) :
    ((y' + before' + days - 1) * 86400000 + rest - v * 60000 -
      ((y + before + days - 1) * 86400000 + rest - w * 60000)) % 2 ^ 64 ≠ 0 := by
  obtain ⟨d, hd⟩ : ∃ d, d = y' - y + (before' - before) := ⟨_, rfl⟩
  have hlow : 561461243528488408719 ≤ d := by omega
  have hhigh : d ≤ 561461243528488408723 := by omega
  have heq : (y' + before' + days - 1) * 86400000 + rest - v * 60000 -
      ((y + before + days - 1) * 86400000 + rest - w * 60000) =
        2 ^ 5 * (1875 * (1440 * d - v + w)) := by
    rw [hd]
    ring
  rw [heq]
  intro hmod
  obtain ⟨k, hk⟩ := dvd_of_minutes hmod
  clear hmod heq hd
  have hless : 1402531 < k := by omega
  have hmore : k < 1402532 := by omega
  omega

theorem dayFromYear_wraps (y : ℤ) :
    561461243528488408720 ≤ dayFromYear (y + 1537228672809129301) - dayFromYear y ∧
      dayFromYear (y + 1537228672809129301) - dayFromYear y ≤ 561461243528488408722 := by
  unfold dayFromYear
  constructor <;> omega

/-- A time zone, or UTC. -/
theorem utcShift_bounds (zone : TimeZone) (isLocal : Bool) :
    ∃ w, utcShift zone.minutes isLocal = w * 60000 ∧
      -367199254740992 ≤ w * 60000 ∧ w * 60000 ≤ 367199254740992 := by
  cases isLocal with
  | true => exact ⟨zone.minutes, rfl, zone.low, zone.high⟩
  | false => exact ⟨0, rfl, by decide, by decide⟩

/-- From one of the least months, another time is computed. -/
theorem fieldsTime64_of_least (stored : Bool) (h : FieldsFit tm) (hmonth : tm.mon < -2 ^ 63 + 8)
    (hrange : InRange (tm.time - utcShift zone.minutes isLocal)) :
    fieldsTime64 zone.minutes tm stored ≠ tm.time - utcShift zone.minutes isLocal := by
  obtain ⟨w, hw, hlow, hhigh⟩ := utcShift_bounds zone isLocal
  obtain ⟨v, hv, hlow', hhigh'⟩ := utcShift_bounds zone stored
  have hfits := hrange.fits
  obtain ⟨hleast, hgreatest⟩ := hrange
  rw [hw] at hleast hgreatest hfits ⊢
  obtain ⟨hyear, hyear'⟩ := h.year_bounds (by omega) (by omega)
  have hwraps := year64_of_least h.mon hmonth hyear hyear'
  have htame : Tame (year64 tm.yr tm.mon) := by
    rw [hwraps]
    exact ⟨by omega, by omega⟩
  have hdays := dayFromYear_wraps (tm.yr + tm.mon / 12)
  intro heq
  rw [fieldsTime64_eq zone.minutes stored htame, hwraps, hv, ← int64_of_fits hfits,
    int64_eq_iff, ← tm.timeIn_year] at heq
  exact year_wraps _ _ hdays.1 hdays.2 (daysBefore_near _ _ _)
    (daysBefore_near _ _ _) hlow' hhigh' hlow hhigh heq

/-! ## What setters do -/

/-- What is in range in one time base is put together without a wrap in the other too. -/
theorem fieldsTime64_of_inRange (stored : Bool) (hfit : FieldsFit tm)
    (hmon : -2 ^ 63 + 8 ≤ tm.mon) (hnew : InRange (tm.time - utcShift zone.minutes isLocal)) :
    fieldsTime64 zone.minutes tm stored = tm.time - utcShift zone.minutes stored := by
  obtain ⟨w, hw, hlow, hhigh⟩ := utcShift_bounds zone isLocal
  obtain ⟨v, hv, hlow', hhigh'⟩ := utcShift_bounds zone stored
  obtain ⟨hleast, hgreatest⟩ := hnew
  rw [hw] at hleast hgreatest
  apply fieldsTime64_of_fits zone.minutes stored hfit hmon
  · omega
  · omega
  · rw [hv]
    exact ⟨by omega, by omega⟩

theorem utcShift_eq_iff (zone : ℤ) (isLocal : Bool) :
    utcShift zone true = utcShift zone isLocal ↔ isLocal = true ∨ zone = 0 := by
  unfold utcShift
  cases isLocal <;> simp

/-- A setter whose time is one of `Date` is right if and only if it is one of local time or local
time is UTC, its arguments fit, and the month is not one of the least numbers. -/
theorem setFields_iff (zone : TimeZone) (f : DateField) (isLocal : Bool) {time : ℤ}
    {values : List ℤ} {tm : Fields} (hrange : InRange time) (htm : Civil tm)
    (htime : tm.time = time + utcShift zone.minutes isLocal) (hne : values ≠ [])
    (hnew : InRange (newTime zone.minutes f isLocal values tm)) :
    SetsRight zone.minutes time f isLocal values tm ↔
      (isLocal = true ∨ zone.minutes = 0) ∧ (∀ v ∈ values.take f.count, Fits v) ∧
        -2 ^ 63 + 8 ≤ (tm.setAll f.index (values.take f.count)).mon := by
  have hset := setFields_eq zone.minutes (some time) f isLocal hne (Or.inr (Option.some_ne_none _))
  rw [Option.elim_some, htm.destructDate_eq htime] at hset
  unfold newTime at hnew
  constructor
  · intro h
    have hresult := h.result
    rw [hset] at hresult
    split_ifs at hresult with hfits
    · have hfit := (htm.fit_local hrange htime).setAll f.index hfits
      have hstored := timeclip_eq_some (Except.ok.inj hresult)
      have hmon : -2 ^ 63 + 8 ≤ (tm.setAll f.index (values.take f.count)).mon := by
        by_contra hless
        exact fieldsTime64_of_least true hfit (by omega) hnew hstored.symm
      rw [fieldsTime64_of_inRange true hfit hmon hnew, newTime] at hstored
      exact ⟨(utcShift_eq_iff _ _).mp (by omega), hfits, hmon⟩
  · rintro ⟨hzone, hfits, hmon⟩
    have hfit := (htm.fit_local hrange htime).setAll f.index hfits
    have hstored := fieldsTime64_of_inRange true hfit hmon hnew
    rw [(utcShift_eq_iff _ _).mpr hzone] at hstored
    obtain ⟨hcivil, hcivilTime⟩ := destructDate_civil zone.minutes
      (newTime zone.minutes f isLocal values tm + utcShift zone.minutes isLocal)
    constructor
    · rw [hset, if_pos hfits, makeDate64, hstored, timeclip_of_inRange hnew, newTime]
    · exact ⟨_, hcivil, hcivilTime, getField_eq hcivil hcivilTime⟩
    · intro hstores
      rw [newTime, hstores.setAll_eq, htime, add_sub_cancel_right]

/-- An hour ahead of UTC, a quarter past one is set to a quarter past five. -/
theorem setFields_iff_hours :
    SetsRight 60 900000 .hours true [5] (destructDate 0 4500000 false) ∧
      newTime 60 .hours true [5] (destructDate 0 4500000 false) = 15300000 := by
  have hcivil := destructDate_civil 0 4500000
  constructor
  · exact (setFields_iff ⟨60, by decide, by decide⟩ .hours true ⟨by decide, by decide⟩ hcivil.1
      hcivil.2 (List.cons_ne_nil 5 []) ⟨by decide, by decide⟩).mpr
      ⟨Or.inl rfl, by simp [DateField.count, Fits], by decide⟩
  · decide

/-- An hour ahead of UTC, `setUTCHours(0)` sets midnight back by an hour. -/
theorem not_setsRight :
    ¬∀ (zone : TimeZone) (f : DateField) (isLocal : Bool) (time : ℤ) (values : List ℤ)
      (tm : Fields), InRange time → Civil tm → tm.time = time + utcShift zone.minutes isLocal →
        values ≠ [] → InRange (newTime zone.minutes f isLocal values tm) →
          SetsRight zone.minutes time f isLocal values tm := by
  intro h
  have hcivil := destructDate_civil 0 0
  have hright := h ⟨60, by decide, by decide⟩ .hours false 0 [0] (destructDate 0 0 false)
    ⟨by decide, by decide⟩ hcivil.1 hcivil.2 (List.cons_ne_nil 0 []) ⟨by decide, by decide⟩
  have hresult := hright.result
  revert hresult
  decide

end Njs.Date
