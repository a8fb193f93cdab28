import Njs.Date.Calendar
import Njs.Strtod

/-!
# Texts of dates

`njs_date_string` writes a time in one of five formats, and `njs_date_string_parse` reads ISO
texts, those of RFC 2822 and those of `Date.prototype.toString`. What is between a pointer and
the end of a text is a list of bytes.
-/

namespace Njs.Date

/-! ## Writing -/

/-- The bytes of an ASCII text. -/
def ascii (s : String) : List UInt8 := s.toList.map fun c => c.toNat.toUInt8

/-- `njs_integer` with zeros for padding. -/
def padded (width n : ℕ) : List UInt8 :=
  List.replicate (width - (decimal n).length) 48 ++ decimal n

/-- A signed number in `njs_vsprintf`. The width does not include the sign. -/
def integer (width : ℕ) (n : ℤ) : List UInt8 :=
  if n < 0 then 45 :: padded width n.natAbs else padded width n.natAbs

def week : List String := ["Sun", "Mon", "Tue", "Wed", "Thu", "Fri", "Sat"]

def month : List String :=
  ["Jan", "Feb", "Mar", "Apr", "May", "Jun", "Jul", "Aug", "Sep", "Oct", "Nov", "Dec"]

/-- `njs_date_fmt_t`. -/
inductive Format
  | toTimeString | toDateString | toString | toUTCString | toISOString
  deriving DecidableEq

/-- Hours, minutes and seconds. -/
def clock (tm : Fields) : List UInt8 :=
  integer 2 tm.hr ++ ascii ":" ++ integer 2 tm.min ++ ascii ":" ++ integer 2 tm.sec

/-- The year of an ISO text. -/
def isoYear (year : ℤ) : List UInt8 :=
  if 0 ≤ year ∧ year ≤ 9999 then integer 4 year
  else if 0 < year then 43 :: integer 6 year
  else integer 6 year

/-- The first part of `NJS_DATE_FMT_TO_STRING`. -/
def dateText (tm : Fields) : List UInt8 :=
  ascii (week.getD tm.wday.toNat "") ++ ascii " " ++ ascii (month.getD tm.mon.toNat "") ++
    ascii " " ++ integer 2 tm.day ++ ascii " " ++ integer 4 tm.yr

/-- The second part of `NJS_DATE_FMT_TO_STRING`. -/
def timeText (zone : ℤ) (tm : Fields) : List UInt8 :=
  let tz := -tzOffset zone
  clock tm ++ ascii " GMT" ++ [if tz < 0 then 45 else 43] ++ integer 2 (tz.natAbs / 60 : ℕ) ++
    integer 2 (tz.natAbs % 60 : ℕ)

/-- `njs_date_string` of a time that is a number. -/
def dateString (zone : ℤ) (fmt : Format) (time : ℤ) : List UInt8 :=
  match fmt with
  | .toISOString =>
    let tm := destructDate zone time false
    isoYear tm.yr ++ ascii "-" ++ integer 2 (tm.mon + 1) ++ ascii "-" ++ integer 2 tm.day ++
      ascii "T" ++ clock tm ++ ascii "." ++ integer 3 tm.msec ++ ascii "Z"
  | .toUTCString =>
    let tm := destructDate zone time false
    ascii (week.getD tm.wday.toNat "") ++ ascii ", " ++ integer 2 tm.day ++ ascii " " ++
      ascii (month.getD tm.mon.toNat "") ++ ascii " " ++ integer 4 tm.yr ++ ascii " " ++
      clock tm ++ ascii " GMT"
  | .toTimeString => timeText zone (destructDate zone time true)
  | .toDateString => dateText (destructDate zone time true)
  | .toString =>
    let tm := destructDate zone time true
    dateText tm ++ ascii " " ++ timeText zone tm

/-! ## Reading -/

/-- The loop of `njs_date_number_parse` for the digits that are left. -/
def numberLoop : ℕ → ℕ → List UInt8 → Option (ℕ × List UInt8)
  | 0, n, p => some (n, p)
  | size + 1, n, p =>
    match p with
    | [] => none
    | c :: p => if isDigit c then numberLoop size (n * 10 + (c - 48).toNat) p else none

/-- `njs_date_number_parse`. There is no text left where it is called for no digits. -/
def numberParse (size : ℕ) (p : List UInt8) : Option (ℕ × List UInt8) :=
  if size = 0 then none else numberLoop size 0 p

/-- `njs_date_skip_week_day`. -/
def skipWeekDay : List UInt8 → Option (List UInt8)
  | [] => none
  | c :: p => if c = 32 then some (c :: p) else skipWeekDay p

/-- `njs_date_skip_spaces`. -/
def skipSpaces : List UInt8 → Option (List UInt8)
  | [] => none
  | c :: p => if c = 32 then some (p.dropWhile (· = 32)) else none

/-- `njs_date_month_parse`: the month whose name a text begins with. -/
def monthParse (p : List UInt8) : Option ℕ :=
  (List.range 12).find? fun i => (ascii (month.getD i "")).isPrefixOf p

/-- `njs_date_time_parse`. -/
def timeParse (tm : Fields) (p : List UInt8) : Option (Fields × List UInt8) := do
  let (hr, p) ← numberParse 2 p
  match p with
  | [] => none
  | c :: p =>
    if c ≠ 58 then none
    else do
      let (min, p) ← numberParse 2 p
      match p with
      | [] => some ({ tm with hr := hr, min := min }, [])
      | c :: p =>
        if c ≠ 58 then none
        else do
          let (sec, p) ← numberParse 2 p
          some ({ tm with hr := hr, min := min, sec := sec }, p)

/-- `njs_date_gmtoff_parse`: minus one stands for a text that is no offset. -/
def gmtoffParse (start : List UInt8) : ℤ :=
  match start with
  | [] => -1
  | c :: p =>
    if 4 < start.length ∧ (c = 43 ∨ c = 45) then
      match numberParse 2 p with
      | none => -1
      | some (hour, p) =>
        match numberParse 2 p with
        | none => -1
        | some (min, _) => if c = 45 then -((hour * 60 + min : ℕ) : ℤ) else (hour * 60 + min : ℕ)
    else -1

/-- The time of an ISO text, without the `Z`. -/
def isoTimeParse (zone : ℤ) (utc : Bool) (tm : Fields) (p : List UInt8) : Option ℤ := do
  let (tm, p) ← timeParse tm p
  match p with
  | [] => makeDate zone tm false
  | c :: p =>
    if c ≠ 46 then none
    else do
      let length := min p.length 3
      let (msec, p) ← numberParse length p
      if p ≠ [] ∧ numberParse p.length p = none then none
      else
        let msec := if length = 1 then msec * 100 else if length = 2 then msec * 10 else msec
        makeDate zone { tm with msec := msec } !utc

/-- The end of an ISO text, after the `T`. -/
def isoEndParse (zone : ℤ) (tm : Fields) (p : List UInt8) : Option ℤ :=
  if p.getLast? = some 90 then isoTimeParse zone true tm p.dropLast
  else isoTimeParse zone false tm p

/-- An ISO text after the year. -/
def isoDayParse (zone : ℤ) (tm : Fields) (p : List UInt8) : Option ℤ := do
  let (mon, p) ← numberParse 2 p
  let tm := { tm with mon := (mon : ℤ) - 1 }
  match p with
  | [] => makeDate zone tm false
  | c :: p =>
    if c ≠ 45 then none
    else do
      let (day, p) ← numberParse 2 p
      let tm := { tm with day := (day : ℤ) }
      match p with
      | [] => makeDate zone tm false
      | c :: p => if c ≠ 84 then none else isoEndParse zone tm p

/-- The fields before anything is read. -/
def Fields.initial : Fields :=
  { wday := 0, yr := 0, mon := 0, day := 1, hr := 0, min := 0, sec := 0, msec := 0 }

/-- An ISO text after four digits of the year. -/
def isoParse (zone : ℤ) (minus : Bool) (yr : ℕ) (next : List UInt8) : Option ℤ :=
  match next with
  | [] => makeDate zone { Fields.initial with yr := yr } false
  | c :: p =>
    if c = 45 then isoDayParse zone { Fields.initial with yr := yr } p
    else do
      let (ext, next) ← numberParse 2 next
      let yr : ℤ := (yr * 100 + ext : ℕ)
      if minus ∧ yr = 0 then none
      else
        let tm := { Fields.initial with yr := if minus then -yr else yr }
        match next with
        | [] => makeDate zone tm false
        | c :: p => if c ≠ 45 then none else isoDayParse zone tm p

/-- `njs_date_rfc2822_string_parse`. -/
def rfc2822StringParse (zone : ℤ) (tm : Fields) (p : List UInt8) : Option ℤ := do
  let p ← skipSpaces p
  let mon ← monthParse p
  let p ← skipSpaces (p.drop 3)
  let (yr, p) ← numberParse 4 p
  let tm := { tm with mon := mon, yr := yr }
  let finish (tm : Fields) (gmtoff : ℤ) := makeDate zone { tm with msec := -gmtoff * 60000 } false
  if p = [] then finish tm 0
  else do
    let p ← skipSpaces p
    if p = [] then finish tm 0
    else do
      let (tm, p) ← timeParse tm p
      if p = [] then finish tm 0
      else do
        let p ← skipSpaces p
        if p = [] then finish tm 0
        else if p.length ≤ 2 then none
        else if (ascii "GMT").isPrefixOf p ∨ (ascii "UTC").isPrefixOf p then finish tm 0
        else if gmtoffParse p = -1 then none
        else finish tm (gmtoffParse p)

/-- `njs_date_js_string_parse`. -/
def jsStringParse (zone : ℤ) (tm : Fields) (p : List UInt8) : Option ℤ := do
  let p ← skipSpaces p
  let (day, p) ← numberParse 2 p
  let p ← skipSpaces p
  let (yr, p) ← numberParse 4 p
  let tm := { tm with day := day, yr := yr }
  if p = [] then makeDate zone tm false
  else do
    let p ← skipSpaces p
    if p = [] then makeDate zone tm false
    else do
      let (tm, p) ← timeParse tm p
      if p = [] then makeDate zone tm false
      else do
        let p ← skipSpaces p
        if p = [] then makeDate zone tm false
        else if (ascii "GMT").isPrefixOf p ∧ gmtoffParse (p.drop 3) ≠ -1 then
          makeDate zone { tm with msec := -gmtoffParse (p.drop 3) * 60000 } false
        else none

/-- A pass of the last loop of `njs_date_string_parse`, and what follows a name of a day. -/
def dayParse (zone : ℤ) (p : List UInt8) (skipped : List UInt8 → Option ℤ) : Option ℤ :=
  match numberParse 2 p with
  | some (day, next) => rfc2822StringParse zone { Fields.initial with day := day } next
  | none =>
    match monthParse p with
    | some mon => jsStringParse zone { Fields.initial with mon := mon } (p.drop 3)
    | none => skipped p

/-- `njs_date_string_parse`. -/
def stringParse (zone : ℤ) (string : List UInt8) : Option ℤ :=
  match string with
  | [] => none
  | c :: rest =>
    let sign := c = 43 ∨ c = 45
    match numberParse 4 (if sign then rest else string) with
    | some (yr, next) => isoParse zone (c = 45) yr next
    | none =>
      if sign then none
      else dayParse zone string fun p => do
        let p ← skipWeekDay p
        let p ← skipSpaces p
        dayParse zone p fun _ => none

end Njs.Date
