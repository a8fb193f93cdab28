import Njs.Number
import Njs.Str.OffsetMap

/-!
# Searching in strings

`indexOf`, `lastIndexOf`, `includes`, `startsWith` and `endsWith` of two strings and a
position. Positions in memory are counted from the start of the string; what lies outside of
it may not be read.
-/

namespace Njs.Str

/-- What `njs_string_prop` returns. -/
def StringProp.chars (string : StringProp) : ℕ :=
  if string.length = 0 then string.size else string.length

/-- Whether `memcmp` of the bytes at `p` with all bytes of another string is zero. -/
def memcmpEq (bytes : List UInt8) (p : ℤ) (search : List UInt8) : Result Bool :=
  if search = [] then .ok true
  else if 0 ≤ p ∧ p + search.length ≤ bytes.length then
    .ok (decide (search <+: bytes.drop p.toNat))
  else .error .fault

/-- The loop of `njs_utf8_next` over the continuation bytes before `end`. -/
def continuationScan (stop : ℤ) : List UInt8 → ℕ → ℕ
  | [], p => p
  | c :: rest, p =>
    if c &&& 0xC0 = 0x80 then
      if (p + 1 : ℤ) < stop then continuationScan stop rest (p + 1) else p + 1
    else p

/-- `njs_utf8_next` with an `end` that may be before the end of the string. -/
def utf8NextTo (bytes : List UInt8) (stop : ℤ) (p : ℕ) : ℕ :=
  match bytes.drop p with
  | [] => p + 1
  | c :: rest => if c &&& 0x80 ≠ 0 then continuationScan stop rest (p + 1) else p + 1

/-- `njs_utf8_prev`. -/
def utf8Prev (bytes : List UInt8) : ℕ → Result ℕ
  | 0 => .error .fault
  | p + 1 =>
    match bytes[p]? with
    | none => .error .fault
    | some c => if c &&& 0xC0 = 0x80 then utf8Prev bytes p else .ok p

/-- A loop over the positions before `stop`, with the number of the character at each of
them. The size is fuel enough, as every step is over a byte at least. -/
def searchLoop (bytes search : List UInt8) (stop : ℤ) (next : ℕ → ℕ) :
    ℕ → ℕ → ℕ → Result (Option ℕ)
  | 0, _, _ => .ok none
  | fuel + 1, p, index =>
    if (p : ℤ) < stop then do
      if ← memcmpEq bytes p search then .ok (some index)
      else searchLoop bytes search stop next fuel (next p) (index + 1)
    else .ok none

/-- The place of a character: the branches for a byte or ASCII string, and for a UTF-8 one. -/
def charPlace (string : StringProp) (cells : List ℕ) (index : ℕ) : Result ℕ :=
  if string.size = string.chars then .ok index
  else do
    let p ← stringOffset string cells index
    .ok p.1

/-- A position argument: an integer that is not negative. -/
def positionIndex : Option Number → ℤ
  | none => 0
  | some n => if numberToInteger n < 0 then 0 else numberToInteger n

/-- `njs_string_prototype_index_of`. -/
def prototypeIndexOf (string : StringProp) (cells : List ℕ) (search : StringProp)
    (position : Option Number) : Result ℤ :=
  let index := positionIndex position
  let stop : ℤ := string.size - (search.size - 1)
  if (string.chars : ℤ) - index ≥ search.chars then
    if string.size = string.chars then do
      -- Byte or ASCII string.
      let found ← searchLoop string.start search.start stop (· + 1) (string.size + 2)
        index.toNat index.toNat
      .ok (found.elim (-1) fun i => i)
    else do
      let p ← stringOffset string cells index.toNat
      let found ← searchLoop string.start search.start stop (utf8NextTo string.start stop)
        (string.size + 2) p.1 index.toNat
      .ok (found.elim (-1) fun i => i)
  else if search.size = 0 then .ok string.chars
  else .ok (-1)

/-- `njs_string_prototype_includes`. -/
def prototypeIncludes (string : StringProp) (cells : List ℕ) (search : StringProp)
    (position : Option Number) : Result Bool :=
  let index := positionIndex position
  let stop : ℤ := string.size - (search.size - 1)
  if search.chars = 0 then .ok true
  else if (string.chars : ℤ) - index ≥ search.chars then do
    let p ← charPlace string cells index.toNat
    let found ← searchLoop string.start search.start stop (· + 1) (string.size + 2) p 0
    .ok found.isSome
  else .ok false

/-- The loop of `njs_string_prototype_last_index_of` in a byte or ASCII string. -/
def lastByteLoop (bytes search : List UInt8) : ℕ → ℤ → ℤ → Result ℤ
  | 0, _, index => .ok index
  | fuel + 1, p, index => do
    if ← memcmpEq bytes p search then .ok index
    else if p - 1 ≥ 0 then lastByteLoop bytes search fuel (p - 1) (index - 1)
    else .ok (index - 1)

/-- The first loop of `njs_string_prototype_last_index_of` in a UTF-8 string. -/
def retreatLoop (bytes : List UInt8) (stop : ℤ) : ℕ → ℕ → ℤ → Result (ℕ × ℤ)
  | 0, p, index => .ok (p, index)
  | fuel + 1, p, index =>
    if (p : ℤ) > stop then do
      let p ← utf8Prev bytes p
      retreatLoop bytes stop fuel p (index - 1)
    else .ok (p, index)

/-- The second loop of `njs_string_prototype_last_index_of` in a UTF-8 string. -/
def lastCharLoop (bytes search : List UInt8) : ℕ → ℕ → ℤ → Result ℤ
  | 0, _, index => .ok index
  | fuel + 1, p, index => do
    if ← memcmpEq bytes p search then .ok index
    else if p = 0 then .ok (index - 1)
    else do
      let p ← utf8Prev bytes p
      lastCharLoop bytes search fuel p (index - 1)

/-- The position argument of `lastIndexOf`. An absent position is converted to a NaN. -/
def lastPositionIndex (position : Number) : ℤ :=
  if position = .nan then maxLength
  else if numberToInteger position < 0 then 0 else numberToInteger position

/-- The branch of `njs_string_prototype_last_index_of` for a byte or ASCII string. -/
def lastIndexOfBytes (string search : StringProp) (index : ℤ) : Result ℤ :=
  let start : ℤ := string.chars - search.size
  let index := if index > start then start else index
  lastByteLoop string.start search.start (string.size + 1) index index

/-- The branch of `njs_string_prototype_last_index_of` for a UTF-8 string. -/
def lastIndexOfChars (string : StringProp) (cells : List ℕ) (search : StringProp) (index : ℤ) :
    Result ℤ := do
  let p ← stringOffset string cells index.toNat
  let place ← retreatLoop string.start (string.size - search.size) (string.size + 1) p.1 index
  lastCharLoop string.start search.start (string.size + 1) place.1 place.2

/-- `njs_string_prototype_last_index_of`. -/
def prototypeLastIndexOf (string : StringProp) (cells : List ℕ) (search : StringProp)
    (position : Number) : Result ℤ :=
  let length := string.chars
  if length < search.chars then .ok (-1)
  else
    let index := lastPositionIndex position
    if search.chars = 0 then .ok (min index length)
    else
      let index : ℤ := if index ≥ length then length - 1 else index
      if string.size = length then lastIndexOfBytes string search index
      else lastIndexOfChars string cells search index

end Njs.Str
