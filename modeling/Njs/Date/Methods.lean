import Njs.Date.Civil
import Njs.Number
import Njs.Result

/-!
# The methods of dates

The getters and setters of `Date.prototype`, `Date.UTC()` and the constructor with fields. One
function serves all setters: the fields that it sets are packed in a number.
-/

namespace Njs.Date

/-- The fields that have getters and setters, with the index of each in `tm`. -/
inductive DateField
  | fullYear | month | date | hours | minutes | seconds | milliseconds
  deriving DecidableEq

/-- `NJS_DATE_YR` and so on. -/
def DateField.index : DateField → ℕ
  | fullYear => 1
  | month => 2
  | date => 3
  | hours => 4
  | minutes => 5
  | seconds => 6
  | milliseconds => 7

/-- How many fields a setter sets at most. -/
def DateField.count : DateField → ℕ
  | fullYear => 3
  | month => 2
  | date => 1
  | hours => 4
  | minutes => 3
  | seconds => 2
  | milliseconds => 1

/-- `njs_date_magic`. -/
def dateMagic (field : ℕ) (isLocal : Bool) : ℕ := (isLocal.toNat <<< 6) + field

/-- `njs_date_magic2`. -/
def dateMagic2 (since len : ℕ) (isLocal : Bool) : ℕ :=
  (isLocal.toNat <<< 6) + ((len &&& 7) <<< 3) + since

/-- The magic number of a getter. Those of seconds and milliseconds are the other way round. -/
def DateField.getter (f : DateField) (isLocal : Bool) : ℕ :=
  match f with
  | seconds | milliseconds => dateMagic f.index !isLocal
  | _ => dateMagic f.index isLocal

/-- The magic number of a setter. -/
def DateField.setter (f : DateField) (isLocal : Bool) : ℕ := dateMagic2 f.index f.count isLocal

/-- `tm[i]`. -/
def Fields.get (tm : Fields) : ℕ → ℤ
  | 0 => tm.wday
  | 1 => tm.yr
  | 2 => tm.mon
  | 3 => tm.day
  | 4 => tm.hr
  | 5 => tm.min
  | 6 => tm.sec
  | _ => tm.msec

/-- The fields after `tm[i] = v`. -/
def Fields.set (tm : Fields) (i : ℕ) (v : ℤ) : Fields :=
  match i with
  | 0 => { tm with wday := v }
  | 1 => { tm with yr := v }
  | 2 => { tm with mon := v }
  | 3 => { tm with day := v }
  | 4 => { tm with hr := v }
  | 5 => { tm with min := v }
  | 6 => { tm with sec := v }
  | _ => { tm with msec := v }

/-- The conversion of a double to `int64_t`, which C leaves undefined if it does not fit. -/
def toInt64 (q : ℚ) : Result ℤ :=
  if Fits (truncate q) then .ok (truncate q) else .error .fault

/-- The loop that sets the fields from an index on. There are none if an argument is not finite. -/
def setLoop : List Number → ℕ → Fields → Result (Option Fields)
  | [], _, tm => .ok (some tm)
  | .finite q :: args, i, tm => do
    let v ← toInt64 q
    setLoop args (i + 1) (tm.set i v)
  | _ :: _, _, _ => .ok none

variable (zone : ℤ)

/-- `njs_date_prototype_get_field`. -/
def prototypeGetField (magic : ℕ) (time : Option ℤ) : Option ℤ :=
  time.map fun time =>
    (destructDate zone time (decide (magic &&& 0x40 ≠ 0))).get (magic &&& 0xf)

/-- `njs_date_prototype_set_fields`: the time that is stored and returned. -/
def prototypeSetFields (magic : ℕ) (time : Option ℤ) (args : List Number) :
    Result (Option ℤ) := do
  let since := magic &&& 7
  if args = [] ∨ (since ≠ 1 ∧ time = none) then .ok none
  else
    let left := min ((magic >>> 3) &&& 7) args.length
    let tm :=
      match time with
      | some time => destructDate zone time (decide (magic &&& 0x40 ≠ 0))
      | none => destructDate zone 0 false
    let set ← setLoop (args.take left) since tm
    .ok (set.bind fun tm => makeDate64 zone tm true)

/-- The fields of `Date.UTC()` and of the constructor, without arguments. -/
def noFields : Fields :=
  { wday := 0, yr := 0, mon := 0, day := 1, hr := 0, min := 0, sec := 0, msec := 0 }

/-- Years from 0 to 99 are those of the twentieth century. -/
def fullYear (tm : Fields) : Fields :=
  if tm.yr ≥ 0 ∧ tm.yr < 100 then { tm with yr := int64 (tm.yr + 1900) } else tm

/-- `njs_date_utc`. -/
def dateUTC (args : List Number) : Result (Option ℤ) := do
  if args = [] then .ok none
  else
    let set ← setLoop (args.take 7) 1 noFields
    .ok (set.bind fun tm => makeDate64 zone (fullYear tm) false)

/-- `njs_date_constructor` with two arguments or more. -/
def dateConstructor (args : List Number) : Result (Option ℤ) := do
  let set ← setLoop (args.take 7) 1 noFields
  .ok (set.bind fun tm => makeDate64 zone (fullYear tm) true)

/-! ## Setting fields -/

/-- The fields with others from an index on. -/
def Fields.setAll (tm : Fields) : ℕ → List ℤ → Fields
  | _, [] => tm
  | i, v :: values => (tm.set i v).setAll (i + 1) values

/-- The integers, as numbers. -/
def numbers (values : List ℤ) : List Number := values.map fun v : ℤ => Number.finite (v : ℚ)

theorem toInt64_intCast (v : ℤ) :
    toInt64 (v : ℚ) = if Fits v then .ok v else .error .fault := by
  unfold toInt64
  rw [truncate_intCast]

theorem setLoop_numbers {values : List ℤ} (h : ∀ v ∈ values, Fits v) (i : ℕ) (tm : Fields) :
    setLoop (numbers values) i tm = .ok (some (tm.setAll i values)) := by
  induction values generalizing i tm with
  | nil => rfl
  | cons v values ih =>
    have hv := h v List.mem_cons_self
    have hrest := ih (fun w hw => h w (List.mem_cons_of_mem v hw)) (i + 1) (tm.set i v)
    unfold numbers at hrest ⊢
    rw [List.map_cons, setLoop, toInt64_intCast, if_pos hv]
    exact hrest

theorem setLoop_fault {values : List ℤ} (h : ¬∀ v ∈ values, Fits v) (i : ℕ) (tm : Fields) :
    setLoop (numbers values) i tm = .error .fault := by
  induction values generalizing i tm with
  | nil => exact absurd (by simp) h
  | cons v values ih =>
    unfold numbers at ih ⊢
    rw [List.map_cons, setLoop, toInt64_intCast]
    by_cases hv : Fits v
    · rw [if_pos hv]
      apply ih
      intro hrest
      exact h (List.forall_mem_cons.mpr ⟨hv, hrest⟩)
    · rw [if_neg hv]
      rfl

theorem numbers_take (values : List ℤ) (n : ℕ) :
    (numbers values).take n = numbers (values.take n) := by
  unfold numbers
  rw [List.map_take]

theorem setter_since (f : DateField) (isLocal : Bool) : f.setter isLocal &&& 7 = f.index := by
  cases f <;> cases isLocal <;> rfl

theorem setter_count (f : DateField) (isLocal : Bool) :
    (f.setter isLocal >>> 3) &&& 7 = f.count := by
  cases f <;> cases isLocal <;> rfl

theorem setter_local (f : DateField) (isLocal : Bool) :
    decide (f.setter isLocal &&& 0x40 ≠ 0) = isLocal := by
  cases f <;> cases isLocal <;> rfl

/-- A setter sets its fields of a date. The one of the year does it of an invalid date too. -/
theorem setFields_eq (zone : ℤ) (time : Option ℤ) (f : DateField) (isLocal : Bool)
    {values : List ℤ} (hne : values ≠ []) (hvalid : f.index = 1 ∨ time ≠ none) :
    prototypeSetFields zone (f.setter isLocal) time (numbers values) =
      if ∀ v ∈ values.take f.count, Fits v then
        .ok (makeDate64 zone ((time.elim (destructDate zone 0 false)
          (destructDate zone · isLocal)).setAll f.index (values.take f.count)) true)
      else .error .fault := by
  have hargs : ¬(numbers values = [] ∨ (f.index ≠ 1 ∧ time = none)) := by
    rintro (h | ⟨hindex, htime⟩)
    · exact hne (List.map_eq_nil_iff.mp h)
    · exact hvalid.elim hindex (· htime)
  have htake : (numbers values).take (min f.count (numbers values).length) =
      numbers (values.take f.count) := by
    rw [← numbers_take, ← List.take_take, List.take_length]
  unfold prototypeSetFields
  simp only [setter_since, setter_count, setter_local, htake]
  rw [if_neg hargs]
  by_cases hfits : ∀ v ∈ values.take f.count, Fits v
  · rw [setLoop_numbers hfits, if_pos hfits]
    cases time <;> rfl
  · rw [setLoop_fault hfits, if_neg hfits]
    rfl

/-- A setter leaves a date invalid, unless it is the one of the year. -/
theorem setFields_none (zone : ℤ) {f : DateField} (isLocal : Bool) (args : List Number)
    (hindex : f.index ≠ 1) :
    prototypeSetFields zone (f.setter isLocal) none args = .ok none := by
  unfold prototypeSetFields
  rw [setter_since]
  exact if_pos (Or.inr ⟨hindex, rfl⟩)

end Njs.Date
