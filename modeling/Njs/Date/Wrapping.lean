import Njs.Date.Setters

/-!
# Dates that wrap around

`Date.UTC()`, the constructor and the setters check the range of a time after it is computed, in
64 bits. A time outside the range that wraps around into it passes the check.
-/

namespace Njs.Date

variable {tm : Fields} {zone : TimeZone} {values : List ℤ}

/-- The exact time of some fields does not wrap around into the range of `Date` unless it is in
it, and a time in the range is put together in its time base. -/
def Unwrapped (zone : ℤ) (tm : Fields) (stored isLocal : Bool) : Prop :=
  (InRange (tm.time - utcShift zone isLocal) →
    -2 ^ 63 + 8 ≤ tm.mon ∧ utcShift zone stored = utcShift zone isLocal) ∧
  (¬InRange (tm.time - utcShift zone isLocal) →
    Tame (wrappedYear tm.yr tm.mon) ∧
      ¬InRange (int64 (tm.timeIn (wrappedYear tm.yr tm.mon) - utcShift zone stored)))

/-- The calls that put a date together, with numbers that are integers. -/
inductive Call
  /-- `Date.UTC()` -/
  | utc (args : List ℤ)
  /-- The constructor with two arguments or more. -/
  | create (year month : ℤ) (rest : List ℤ)
  /-- A setter of a date with a time, or an invalid one. -/
  | set (f : DateField) (isLocal : Bool) (time : Option ℤ) (args : List ℤ)

/-- The arguments fit, and the date has a time of `Date`. -/
def Call.Valid : Call → Prop
  | utc args => ∀ v ∈ args, Fits v
  | create year month rest => ∀ v ∈ year :: month :: rest, Fits v
  | set _ _ time args => (∀ t, time = some t → InRange t) ∧ ∀ v ∈ args, Fits v

/-- What a call returns. -/
def Call.run (zone : ℤ) : Call → Result (Option ℤ)
  | utc args => dateUTC zone (numbers args)
  | create year month rest => dateConstructor zone (numbers (year :: month :: rest))
  | set f isLocal time args => prototypeSetFields zone (f.setter isLocal) time (numbers args)

/-- Years from 0 to 99 are those of the twentieth century. -/
def Fields.century (tm : Fields) : Fields :=
  if 0 ≤ tm.yr ∧ tm.yr ≤ 99 then { tm with yr := tm.yr + 1900 } else tm

/-- The fields of the date that ECMAScript prescribes. There are none of an invalid date. -/
def Call.fields (zone : ℤ) : Call → Option Fields
  | utc [] => none
  | utc args => some (noFields.setAll 1 (args.take 7)).century
  | create year month rest => some (noFields.setAll 1 ((year :: month :: rest).take 7)).century
  | set _ _ _ [] => none
  | set f isLocal (some time) args =>
    some ((destructDate zone (time + utcShift zone isLocal) false).setAll f.index
      (args.take f.count))
  | set .fullYear _ none args =>
    some ((destructDate zone 0 false).setAll 1 (args.take 3))
  | set _ _ none _ => none

/-- Whether the fields are in local time. -/
def Call.isLocal : Call → Bool
  | utc _ => false
  | create .. => true
  | set _ isLocal _ _ => isLocal

/-- Whether the code puts the fields together in local time. -/
def Call.stored : Call → Bool
  | utc _ => false
  | _ => true

/-- A call returns the exact time, if it is in the range of `Date`. -/
def Call.Exact (zone : ℤ) (call : Call) : Prop :=
  call.run zone = .ok ((call.fields zone).bind fun tm =>
    timeclip (tm.time - utcShift zone call.isLocal))

/-- The exact time of a call does not wrap around. -/
def Call.Unwrapped (zone : ℤ) (call : Call) : Prop :=
  ∀ tm ∈ call.fields zone, Date.Unwrapped zone tm call.stored call.isLocal

/-- The year of a call is not one of the least numbers. -/
def Call.Tame (zone : ℤ) (call : Call) : Prop :=
  ∀ tm ∈ call.fields zone, Date.Tame (wrappedYear tm.yr tm.mon)

/-! ## What is put together -/

/-- Fields are put together to their exact time, if it does not wrap around. Unless the year is
one of the least numbers, they are not otherwise. -/
theorem makeDate64_exact (zone : TimeZone) (stored isLocal : Bool) (h : FieldsFit tm) :
    (Unwrapped zone.minutes tm stored isLocal → makeDate64 zone.minutes tm stored =
      timeclip (tm.time - utcShift zone.minutes isLocal)) ∧
    (Tame (wrappedYear tm.yr tm.mon) → makeDate64 zone.minutes tm stored =
      timeclip (tm.time - utcShift zone.minutes isLocal) →
        Unwrapped zone.minutes tm stored isLocal) := by
  have hyear := year64_eq tm.yr h.mon
  have hwraps : Tame (wrappedYear tm.yr tm.mon) → fieldsTime64 zone.minutes tm stored =
      int64 (tm.timeIn (wrappedYear tm.yr tm.mon) - utcShift zone.minutes stored) := by
    intro htame
    rw [← hyear] at htame ⊢
    exact fieldsTime64_eq zone.minutes stored htame
  unfold makeDate64
  by_cases hrange : InRange (tm.time - utcShift zone.minutes isLocal)
  · rw [timeclip_of_inRange hrange]
    constructor
    · rintro ⟨hexact, -⟩
      obtain ⟨hmon, hshift⟩ := hexact hrange
      rw [fieldsTime64_of_inRange stored h hmon hrange, hshift, timeclip_of_inRange hrange]
    · intro _ hsame
      have htime := timeclip_eq_some hsame
      refine ⟨fun _ => ?_, fun hnot => absurd hrange hnot⟩
      have hmon : -2 ^ 63 + 8 ≤ tm.mon := by
        by_contra hleast
        exact fieldsTime64_of_least stored h (by omega) hrange htime.symm
      rw [fieldsTime64_of_inRange stored h hmon hrange] at htime
      exact ⟨hmon, by omega⟩
  · rw [timeclip_of_not_inRange hrange]
    constructor
    · rintro ⟨-, hexact⟩
      obtain ⟨htame, hnot⟩ := hexact hrange
      rw [hwraps htame, timeclip_of_not_inRange hnot]
    · intro htame hsame
      refine ⟨fun hin => absurd hin hrange, fun _ => ⟨htame, ?_⟩⟩
      intro hin
      rw [hwraps htame, timeclip_of_inRange hin] at hsame
      cases hsame

/-! ## What is called -/

theorem noFields_fit : FieldsFit noFields := by
  constructor <;> exact ⟨by decide, by decide⟩

theorem FieldsFit.century (h : FieldsFit tm) : FieldsFit tm.century := by
  unfold Fields.century
  split_ifs with hcentury
  · obtain ⟨-, hmon, hday, hhr, hmin, hsec, hmsec⟩ := h
    exact ⟨⟨by simp only; omega, by simp only; omega⟩, hmon, hday, hhr, hmin, hsec, hmsec⟩
  · exact h

theorem fullYear_eq (tm : Fields) : fullYear tm = tm.century := by
  unfold fullYear Fields.century
  by_cases hcentury : 0 ≤ tm.yr ∧ tm.yr ≤ 99
  · rw [if_pos (by omega), if_pos hcentury, int64_of_fits ⟨by omega, by omega⟩]
  · rw [if_neg (by omega), if_neg hcentury]

theorem fits_take {n : ℕ} (h : ∀ v ∈ values, Fits v) : ∀ v ∈ values.take n, Fits v := by
  intro v hv
  exact h v (List.mem_of_mem_take hv)

/-- The fields of a call fit. -/
theorem Call.Valid.fit {call : Call} (h : call.Valid) (hfields : tm ∈ call.fields zone.minutes) :
    FieldsFit tm := by
  cases call with
  | utc args =>
    cases args with
    | nil => cases hfields
    | cons v args =>
      obtain rfl := Option.some.inj hfields
      exact (noFields_fit.setAll 1 (fits_take h)).century
  | create year month rest =>
    obtain rfl := Option.some.inj hfields
    exact (noFields_fit.setAll 1 (fits_take h)).century
  | set f isLocal time args =>
    obtain ⟨hrange, hfits⟩ := h
    cases args with
    | nil => cases hfields
    | cons v args =>
      cases time with
      | none =>
        cases f with
        | fullYear =>
          obtain rfl := Option.some.inj hfields
          apply FieldsFit.setAll _ _ (fits_take hfits)
          obtain ⟨hcivil, htime⟩ := destructDate_civil zone.minutes 0
          exact hcivil.fit (by omega) (by omega)
        | month => cases hfields
        | date => cases hfields
        | hours => cases hfields
        | minutes => cases hfields
        | seconds => cases hfields
        | milliseconds => cases hfields
      | some time =>
        obtain rfl := Option.some.inj hfields
        apply FieldsFit.setAll _ _ (fits_take hfits)
        obtain ⟨hcivil, htime⟩ := destructDate_civil zone.minutes
          (time + utcShift zone.minutes isLocal)
        exact hcivil.fit_local (hrange time rfl) htime

/-- `Date.UTC()` and the constructor set the fields of no date. -/
theorem setLoop_noFields (hfits : ∀ v ∈ values, Fits v) :
    setLoop ((numbers values).take 7) 1 noFields =
      .ok (some (noFields.setAll 1 (values.take 7))) := by
  rw [numbers_take]
  exact setLoop_numbers (fits_take hfits) 1 noFields

theorem dateUTC_eq (zone : ℤ) (hne : values ≠ []) (hfits : ∀ v ∈ values, Fits v) :
    dateUTC zone (numbers values) =
      .ok (makeDate64 zone (noFields.setAll 1 (values.take 7)).century false) := by
  have hargs : numbers values ≠ [] := by
    intro h
    exact hne (List.map_eq_nil_iff.mp h)
  unfold dateUTC
  rw [if_neg hargs, setLoop_noFields hfits, ← fullYear_eq]
  rfl

theorem dateConstructor_eq (zone : ℤ) (hfits : ∀ v ∈ values, Fits v) :
    dateConstructor zone (numbers values) =
      .ok (makeDate64 zone (noFields.setAll 1 (values.take 7)).century true) := by
  unfold dateConstructor
  rw [setLoop_noFields hfits, ← fullYear_eq]
  rfl

theorem DateField.index_eq_one {f : DateField} : f.index = 1 ↔ f = .fullYear := by
  cases f <;> decide

/-- A call puts its fields together. -/
theorem Call.Valid.run_eq {call : Call} (h : call.Valid) (zone : ℤ) :
    call.run zone = .ok ((call.fields zone).bind fun tm => makeDate64 zone tm call.stored) := by
  cases call with
  | utc args =>
    cases args with
    | nil => rfl
    | cons v args => exact dateUTC_eq zone (List.cons_ne_nil v args) h
  | create year month rest => exact dateConstructor_eq zone h
  | set f isLocal time args =>
    obtain ⟨-, hfits⟩ := h
    cases args with
    | nil => rfl
    | cons v args =>
      cases time with
      | some time =>
        have hset := setFields_eq zone (some time) f isLocal (List.cons_ne_nil v args)
          (Or.inr (Option.some_ne_none time))
        rw [if_pos (fits_take hfits), Option.elim_some, destructDate_base] at hset
        exact hset
      | none =>
        by_cases hyear : f.index = 1
        · have hset := setFields_eq zone none f isLocal (List.cons_ne_nil v args) (Or.inl hyear)
          rw [if_pos (fits_take hfits), Option.elim_none] at hset
          obtain rfl := DateField.index_eq_one.mp hyear
          exact hset
        · have hset := setFields_none zone isLocal (numbers (v :: args)) hyear
          cases f <;> first | exact hset | exact absurd rfl hyear

/-- A call returns the exact time if it does not wrap around. Unless a year is one of the least
numbers, it does not otherwise. -/
theorem call_exact_iff (zone : TimeZone) (call : Call) (h : call.Valid) :
    (call.Unwrapped zone.minutes → call.Exact zone.minutes) ∧
      (call.Tame zone.minutes → call.Exact zone.minutes → call.Unwrapped zone.minutes) := by
  unfold Call.Exact Call.Unwrapped Call.Tame
  rw [h.run_eq zone.minutes]
  cases hfields : call.fields zone.minutes with
  | none =>
    constructor
    · intro _
      rfl
    · intro _ _ tm htm
      cases htm
  | some tm =>
    obtain ⟨hif, honly⟩ := makeDate64_exact zone call.stored call.isLocal (h.fit hfields)
    simp only [Option.mem_def, Option.some.injEq, forall_eq', Option.bind_some,
      Except.ok.injEq]
    exact ⟨hif, honly⟩

/-- The last millisecond of `Date`, and the next one. -/
theorem call_exact_iff_utc :
    (Call.utc [275760, 8, 13]).Exact 0 ∧ (Call.utc [275760, 8, 13, 0, 0, 0, 1]).Exact 0 := by
  constructor
  · apply (call_exact_iff ⟨0, by decide, by decide⟩ (Call.utc [275760, 8, 13])
      (by simp [Call.Valid, Fits])).1
    rintro tm ⟨⟩
    constructor
    · intro _
      exact ⟨by decide, rfl⟩
    · intro hnot
      exact absurd ⟨by decide, by decide⟩ hnot
  · apply (call_exact_iff ⟨0, by decide, by decide⟩ (Call.utc [275760, 8, 13, 0, 0, 0, 1])
      (by simp [Call.Valid, Fits])).1
    rintro tm ⟨⟩
    constructor
    · intro hin
      exact absurd hin.2 (by decide)
    · intro _
      exact ⟨⟨by decide, by decide⟩, fun hin => absurd hin.2 (by decide)⟩

/-- `Date.UTC(1970, 0, 1, 2 ** 57)` is zero. -/
theorem not_call_exact :
    ¬∀ (zone : TimeZone) (call : Call), call.Valid → call.Exact zone.minutes := by
  intro h
  have hexact := h ⟨0, by decide, by decide⟩ (Call.utc [1970, 0, 1, 2 ^ 57])
    (by simp [Call.Valid, Fits])
  revert hexact
  unfold Call.Exact
  decide

end Njs.Date
