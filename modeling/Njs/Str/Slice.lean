import Njs.Array.Refinement
import Njs.Str.Encodings
import Njs.Str.Search
import Njs.Str.Ends

/-!
# Parts of strings

`slice`, `substring`, `substr` and `charAt`: four ways from the arguments to a start and a
length, and the bytes of the characters between them.
-/

namespace Njs.Str

/-- What `njs_string_prop` reads from a value. -/
def StringValue.prop (v : StringValue) : StringProp := ⟨v.bytes, v.length⟩

/-- `njs_string_new`. -/
def stringNew (env : Env) (start : List UInt8) (length : ℕ) : Result StringValue := do
  let v ← stringAlloc env start.length length
  v.fill start

/-- `njs_slice_prop_t`. -/
structure SliceProp where
  /-- The first character. -/
  start : ℕ
  /-- The number of characters. -/
  length : ℕ
  /-- What `njs_string_prop` returned for the string. -/
  stringLength : ℕ

/-- The loop of `njs_string_slice_string_prop` over the rest `p` of the string, with the rest
after it and the number of characters that are missing. -/
def sliceLoop : ℕ → List UInt8 → List UInt8 × ℕ
  | 0, p => (p, 0)
  | n + 1, [] => ([], n + 1)
  | n + 1, c :: p => sliceLoop n (utf8Next (c :: p))

/-- `njs_string_slice_string_prop`. The bytes of the result have to be in the string. -/
def sliceStringProp (string : StringProp) (cells : List ℕ) (slice : SliceProp) :
    Result StringProp :=
  if string.size = slice.stringLength then
    -- Byte or ASCII string.
    if slice.start + slice.length ≤ string.size then
      .ok { start := (string.start.drop slice.start).take slice.length
            length := if string.length = 0 then 0 else slice.length }
    else .error .fault
  else if slice.start < slice.stringLength then do
    let start ← stringOffset string cells slice.start
    let p := string.start.drop start.1
    let rest := sliceLoop slice.length p
    .ok { start := p.take (p.length - rest.1.length), length := slice.length - rest.2 }
  else .ok { start := [], length := 0 }

/-- `njs_string_slice`, with the start and the length of the slice. -/
def stringSlice (env : Env) (string : StringProp) (cells : List ℕ) (slice : ℤ × ℤ) :
    Result StringValue := do
  let prop ← sliceStringProp string cells
    { start := slice.1.toNat, length := slice.2.toNat, stringLength := string.chars }
  if prop.size ≠ 0 then stringNew env prop.start prop.length else .ok emptyString

/-- A start that is relative to the end if it is negative. -/
def relativeStart (start length : ℤ) : ℤ :=
  if start < 0 then if start + length < 0 then 0 else start + length else start

/-- The end of `njs_string_prototype_substring`, from the arguments after the start. -/
def substringStop (length : ℤ) : List Number → ℤ
  | [] => length
  | m :: _ =>
    if numberToInteger m < 0 then 0
    else if numberToInteger m ≥ length then length else numberToInteger m

/-- `njs_string_prototype_substring`, up to the slice. -/
def substringSlice (length : ℤ) : List Number → ℤ × ℤ
  | [] => (0, length)
  | n :: rest =>
    let start := if numberToInteger n < 0 then 0
      else if numberToInteger n > length then length else numberToInteger n
    let stop := substringStop length rest
    if stop - start < 0 then (stop, -(stop - start)) else (start, stop - start)

/-- The length of `njs_string_prototype_substr`, from the arguments after the start and the
length that is left. -/
def substrLength (length : ℤ) : List Number → ℤ
  | [] => length
  | m :: _ =>
    if numberToInteger m < 0 then 0
    else if numberToInteger m < length then numberToInteger m else length

/-- `njs_string_prototype_substr`, up to the slice. -/
def substrSlice (length : ℤ) : List Number → ℤ × ℤ
  | [] => (0, length)
  | n :: rest =>
    if numberToInteger n < length then
      let start := relativeStart (numberToInteger n) length
      (start, substrLength (length - start) rest)
    else (0, 0)

/-- `njs_string_slice_args`. -/
def sliceArgs (length : ℤ) (args : List Number) : ℤ × ℤ :=
  let start := relativeStart (args[0]?.elim 0 numberToInteger) length
  if start ≥ length then (0, 0)
  else
    let stop := args[1]?.elim length numberToInteger
    let stop := if stop < 0 then stop + length else stop
    if length ≥ stop then if stop - start < 0 then (0, 0) else (start, stop - start)
    else (start, length - start)

/-- `njs_string_prototype_char_at`, up to the slice. -/
def charAtSlice (length : ℤ) (args : List Number) : ℤ × ℤ :=
  let start := args[0]?.elim 0 numberToInteger
  if start < 0 ∨ start ≥ length then (0, 0) else (start, 1)

/-- `njs_string_prototype_slice`. -/
def prototypeSlice (env : Env) (string : StringProp) (cells : List ℕ) (args : List Number) :
    Result StringValue :=
  stringSlice env string cells (sliceArgs string.chars args)

/-- `njs_string_prototype_substring`. -/
def prototypeSubstring (env : Env) (string : StringProp) (cells : List ℕ) (args : List Number) :
    Result StringValue :=
  stringSlice env string cells (substringSlice string.chars args)

/-- `njs_string_prototype_substr`. -/
def prototypeSubstr (env : Env) (string : StringProp) (cells : List ℕ) (args : List Number) :
    Result StringValue :=
  stringSlice env string cells (substrSlice string.chars args)

/-- `njs_string_prototype_char_at`. -/
def prototypeCharAt (env : Env) (string : StringProp) (cells : List ℕ) (args : List Number) :
    Result StringValue :=
  stringSlice env string cells (charAtSlice string.chars args)

end Njs.Str

/-!
## Which characters are selected

The four functions select the characters that the definitions of ECMAScript select, for the
arguments as `njs_number_to_integer` converts them. The conversion changes finite numbers beyond
`2 ^ 53` only.
-/

namespace Njs.Str

open Utf8 Lib
open Njs.Array (relativeIndex clampCount)

/-- The characters of a string from one index to another, as a string of the same kind. -/
def Subject.extract (s : Subject) (range : ℕ × ℕ) : Subject :=
  match s with
  | .bytes bs => .bytes ((bs.drop range.1).take (range.2 - range.1))
  | .text us => .text ((us.drop range.1).take (range.2 - range.1))

/-! ### The definitions of ECMAScript -/

/-- The indexes between which `slice` selects. -/
def sliceRange (length : ℕ) (args : List Number) : ℕ × ℕ :=
  (args[0]?.elim 0 fun n => relativeIndex n length,
    args[1]?.elim length fun n => relativeIndex n length)

/-- The indexes between which `substring` selects. -/
def substringRange (length : ℕ) (args : List Number) : ℕ × ℕ :=
  let start := args[0]?.elim 0 fun n => clampCount n length
  let stop := args[1]?.elim length fun n => clampCount n length
  (min start stop, max start stop)

/-- The indexes between which `substr` selects. -/
def substrRange (length : ℕ) (args : List Number) : ℕ × ℕ :=
  let start := args[0]?.elim 0 fun n => relativeIndex n length
  (start, start + args[1]?.elim (length - start) fun n => clampCount n (length - start))

/-- The index that a number stands for, if it is one. -/
def indexOfNumber : Number → Option ℕ
  | .nan => some 0
  | .finite q => if Njs.truncate q < 0 then none else some (Njs.truncate q).toNat
  | _ => none

/-- The indexes between which `charAt` selects. -/
def charAtRange (args : List Number) : ℕ × ℕ :=
  (args[0]?.elim (some 0) indexOfNumber).elim (0, 0) fun i => (i, i + 1)

/-- All four functions return a string with these characters, of the same kind as the string,
whatever the state of the offset map, unless memory is refused. -/
def PartsHold (s : Subject) (args : List Number) : Prop :=
  let length := s.chars.length
  ∀ env cells, InMemory s cells →
    Returns env (prototypeSlice env s.prop cells args)
      (fun v => v.prop = (s.extract (sliceRange length args)).prop) ∧
    Returns env (prototypeSubstring env s.prop cells args)
      (fun v => v.prop = (s.extract (substringRange length args)).prop) ∧
    Returns env (prototypeSubstr env s.prop cells args)
      (fun v => v.prop = (s.extract (substrRange length args)).prop) ∧
    Returns env (prototypeCharAt env s.prop cells args)
      (fun v => v.prop = (s.extract (charAtRange args)).prop)

/-- The number that is taken in place of a number. -/
def converted : Number → Number
  | .finite q => .finite (numberToInt64 q)
  | n => n

/-- The arguments as they are taken select the same characters. -/
def PartsSafe (s : Subject) (args : List Number) : Prop :=
  let length := s.chars.length
  let args' := args.map converted
  s.extract (sliceRange length args') = s.extract (sliceRange length args) ∧
    s.extract (substringRange length args') = s.extract (substringRange length args) ∧
    s.extract (substrRange length args') = s.extract (substrRange length args) ∧
    s.extract (charAtRange args') = s.extract (charAtRange args)

/-! ### Converted arguments -/

section Convert

variable {length : ℕ} (n : Number)

theorem toInteger_posInfinity : numberToInteger .posInfinity = 9223372036854775807 := by decide

theorem toInteger_negInfinity : numberToInteger .negInfinity = -9223372036854775808 := by decide

theorem relativeIndex_converted (hlength : length ≤ maxLength) :
    (relativeIndex (converted n) length : ℤ) =
      min (relativeStart (numberToInteger n) length) length := by
  have hmax : maxLength < 2 ^ 31 := by decide
  rcases n with - | - | - | q
  · simp [relativeIndex, converted, numberToInteger, relativeStart]
  · rw [toInteger_posInfinity]
    simp only [relativeIndex, converted, relativeStart]
    split_ifs <;> omega
  · rw [toInteger_negInfinity]
    simp only [relativeIndex, converted, relativeStart]
    split_ifs <;> omega
  · simp only [relativeIndex, converted, numberToInteger, relativeStart, truncate_intCast]
    split_ifs <;> omega

theorem clampCount_converted (hlength : length ≤ maxLength) :
    (clampCount (converted n) length : ℤ) = min (max (numberToInteger n) 0) length := by
  have hmax : maxLength < 2 ^ 31 := by decide
  rcases n with - | - | - | q
  · simp [clampCount, converted, numberToInteger]
  · rw [toInteger_posInfinity]
    simp only [clampCount, converted]
    omega
  · rw [toInteger_negInfinity]
    simp only [clampCount, converted]
    omega
  · simp only [clampCount, converted, numberToInteger, truncate_intCast]
    omega

end Convert

/-- A slice of the source stands for the characters between two indexes. -/
structure Selects (length : ℕ) (slice : ℤ × ℤ) (range : ℕ × ℕ) : Prop where
  start : 0 ≤ slice.1
  count : 0 ≤ slice.2
  fits : slice.1 + slice.2 ≤ length
  same : (slice.2 = 0 ∧ (range.2 ≤ range.1 ∨ length ≤ range.1)) ∨
    (slice.1 = range.1 ∧ slice.1 + slice.2 = range.2)

section Compute

variable {length : ℕ} (hlength : length ≤ maxLength) (args : List Number)

include hlength

theorem sliceArgs_selects :
    Selects length (sliceArgs length args) (sliceRange length (args.map converted)) := by
  have hself : min (relativeStart length length) (length : ℤ) = length := by
    rw [relativeStart, if_neg (by omega), Int.min_self]
  have hstart : ((sliceRange length (args.map converted)).1 : ℤ) =
      min (relativeStart (args[0]?.elim 0 numberToInteger) length) length := by
    rcases args with - | ⟨n, rest⟩
    · simp [sliceRange, relativeStart]
    · exact relativeIndex_converted n hlength
  have hstop : ((sliceRange length (args.map converted)).2 : ℤ) =
      min (relativeStart (args[1]?.elim length numberToInteger) length) length := by
    rcases args with - | ⟨n, - | ⟨m, rest⟩⟩
    · exact hself.symm
    · exact hself.symm
    · exact relativeIndex_converted m hlength
  have hnonneg : 0 ≤ relativeStart (args[0]?.elim 0 numberToInteger) length := by
    unfold relativeStart
    split_ifs <;> omega
  unfold sliceArgs
  generalize relativeStart (args[0]?.elim 0 numberToInteger) length = start at *
  generalize (args[1]?.elim (length : ℤ) numberToInteger : ℤ) = z at *
  obtain ⟨stop, hz, hrelative⟩ : ∃ stop : ℤ, (if z < 0 then z + length else z) = stop ∧
      ((sliceRange length (args.map converted)).2 : ℤ) = max (min stop length) 0 := by
    refine ⟨_, rfl, ?_⟩
    rw [hstop, relativeStart]
    split_ifs <;> omega
  simp only [hz]
  by_cases hend : start ≥ length
  · rw [if_pos hend]
    exact ⟨Int.le_refl 0, Int.le_refl 0, by omega, .inl ⟨rfl, .inr (by omega)⟩⟩
  rw [if_neg hend]
  by_cases hroom : length ≥ stop
  · rw [if_pos hroom]
    by_cases hneg : stop - start < 0
    · rw [if_pos hneg]
      exact ⟨Int.le_refl 0, Int.le_refl 0, by omega, .inl ⟨rfl, .inl (by omega)⟩⟩
    · rw [if_neg hneg]
      refine ⟨hnonneg, ?_, ?_, .inr ⟨?_, ?_⟩⟩ <;> simp only <;> omega
  · rw [if_neg hroom]
    refine ⟨hnonneg, ?_, ?_, .inr ⟨?_, ?_⟩⟩ <;> simp only <;> omega

theorem substringSlice_selects :
    Selects length (substringSlice length args) (substringRange length (args.map converted)) := by
  rcases args with - | ⟨n, rest⟩
  · refine ⟨Int.le_refl 0, Int.natCast_nonneg _, ?_, .inr ⟨?_, ?_⟩⟩ <;>
      simp [substringSlice, substringRange]
  have hstart := clampCount_converted n hlength
  have hstop : (((rest.map converted)[0]?.elim length fun m => clampCount m length : ℕ) : ℤ) =
      substringStop length rest := by
    rcases rest with - | ⟨m, rest⟩
    · rfl
    · have hm := clampCount_converted m hlength
      simp only [List.map_cons, List.getElem?_cons_zero, Option.elim, substringStop]
      split_ifs <;> omega
  have hrange : substringRange length ((n :: rest).map converted) =
      (min (clampCount (converted n) length)
          ((rest.map converted)[0]?.elim length fun m => clampCount m length),
        max (clampCount (converted n) length)
          ((rest.map converted)[0]?.elim length fun m => clampCount m length)) := rfl
  have hle : substringStop length rest ≤ length ∧ 0 ≤ substringStop length rest := by
    unfold substringStop
    split
    · omega
    · split_ifs <;> omega
  rw [hrange]
  generalize ((rest.map converted)[0]?.elim length fun m => clampCount m length) = j at *
  generalize clampCount (converted n) length = i at *
  obtain ⟨start, hn, hi⟩ : ∃ start : ℤ, (if numberToInteger n < 0 then 0
      else if numberToInteger n > length then (length : ℤ) else numberToInteger n) = start ∧
      start = i := by
    refine ⟨_, rfl, ?_⟩
    split_ifs <;> omega
  simp only [substringSlice, hn]
  by_cases hswap : substringStop length rest - start < 0
  · rw [if_pos hswap]
    refine ⟨?_, ?_, ?_, .inr ⟨?_, ?_⟩⟩ <;> simp only <;> omega
  · rw [if_neg hswap]
    refine ⟨?_, ?_, ?_, .inr ⟨?_, ?_⟩⟩ <;> simp only <;> omega

theorem substrSlice_selects :
    Selects length (substrSlice length args) (substrRange length (args.map converted)) := by
  rcases args with - | ⟨n, rest⟩
  · refine ⟨Int.le_refl 0, Int.natCast_nonneg _, ?_, .inr ⟨?_, ?_⟩⟩ <;>
      simp [substrSlice, substrRange]
  have hstart := relativeIndex_converted n hlength
  have hrange : substrRange length ((n :: rest).map converted) =
      (relativeIndex (converted n) length, relativeIndex (converted n) length +
        (rest.map converted)[0]?.elim (length - relativeIndex (converted n) length)
          fun m => clampCount m (length - relativeIndex (converted n) length)) := rfl
  rw [hrange]
  generalize relativeIndex (converted n) length = i at *
  have hcount : (((rest.map converted)[0]?.elim (length - i)
      fun m => clampCount m (length - i) : ℕ) : ℤ) = substrLength (length - i : ℕ) rest := by
    rcases rest with - | ⟨m, rest⟩
    · rfl
    · have hm := @clampCount_converted (length - i) m (by omega)
      simp only [List.map_cons, List.getElem?_cons_zero, Option.elim, substrLength]
      split_ifs <;> omega
  have hle : substrLength (length - i : ℕ) rest ≤ (length - i : ℕ) ∧
      0 ≤ substrLength (length - i : ℕ) rest := by
    rw [← hcount]
    refine ⟨?_, Int.natCast_nonneg _⟩
    rcases rest with - | ⟨m, rest⟩
    · exact Int.le_refl _
    · have hm := @clampCount_converted (length - i) m (by omega)
      simp only [List.map_cons, List.getElem?_cons_zero, Option.elim]
      omega
  simp only [substrSlice]
  by_cases hlt : numberToInteger n < length
  · have hi : relativeStart (numberToInteger n) length = i := by
      rw [hstart]
      unfold relativeStart
      split_ifs <;> omega
    have hsub : (length : ℤ) - i = (length - i : ℕ) := by omega
    rw [if_pos hlt, hi, hsub]
    refine ⟨?_, ?_, ?_, .inr ⟨?_, ?_⟩⟩ <;> simp only <;> omega
  · have hi : (length : ℤ) ≤ i := by
      rw [hstart]
      unfold relativeStart
      split_ifs <;> omega
    rw [if_neg hlt]
    exact ⟨Int.le_refl 0, Int.le_refl 0, by omega, .inl ⟨rfl, .inr (by omega)⟩⟩

omit hlength in
/-- A character at an index, or none if there is no such index. -/
theorem selects_char {z : ℤ} {range : ℕ × ℕ} (hin : 0 ≤ z → z < length →
    range = (z.toNat, z.toNat + 1)) (hout : z < 0 ∨ z ≥ length →
    range.2 ≤ range.1 ∨ length ≤ range.1) :
    Selects length (if z < 0 ∨ z ≥ length then (0, 0) else (z, 1)) range := by
  by_cases h : z < 0 ∨ z ≥ length
  · rw [if_pos h]
    exact ⟨Int.le_refl 0, Int.le_refl 0, by omega, .inl ⟨rfl, hout h⟩⟩
  · rw [if_neg h, hin (by omega) (by omega)]
    refine ⟨?_, ?_, ?_, .inr ⟨?_, ?_⟩⟩ <;> simp only <;> omega

theorem charAtSlice_selects :
    Selects length (charAtSlice length args) (charAtRange (args.map converted)) := by
  have hmax : maxLength < 2 ^ 31 := by decide
  refine selects_char ?_ ?_ <;> rcases args with - | ⟨n, rest⟩
  · intro _ _
    rfl
  · rcases n with - | - | - | q
    · intro _ _
      rfl
    · intro _ hlt
      have hz : numberToInteger .posInfinity < length := hlt
      rw [toInteger_posInfinity] at hz
      omega
    · intro hnonneg _
      have hz : 0 ≤ numberToInteger .negInfinity := hnonneg
      rw [toInteger_negInfinity] at hz
      omega
    · intro hnonneg _
      have hz : ¬ numberToInt64 q < 0 := Int.not_lt.mpr hnonneg
      simp only [charAtRange, List.map_cons, List.getElem?_cons_zero, Option.elim, converted,
        indexOfNumber, truncate_intCast, if_neg hz]
      rfl
  · intro hout
    have hzero : (0 : ℤ) < 0 ∨ (0 : ℤ) ≥ length := hout
    exact .inr (by omega)
  · intro hout
    rcases n with - | - | - | q
    · have hzero : (0 : ℤ) < 0 ∨ (0 : ℤ) ≥ length := hout
      exact .inr (by omega)
    · exact .inl (Nat.le_refl 0)
    · exact .inl (Nat.le_refl 0)
    · simp only [charAtRange, List.map_cons, List.getElem?_cons_zero, Option.elim, converted,
        indexOfNumber, truncate_intCast] at hout ⊢
      have hz : numberToInt64 q < 0 ∨ numberToInt64 q ≥ length := hout
      split_ifs with hneg
      · exact .inl (Nat.le_refl 0)
      · exact .inr (by simp only; omega)

end Compute

/-! ### The bytes of the selected characters -/

theorem sliceLoop_text (us : List CodePoint) (n k : ℕ) (hn : k + n ≤ us.length) :
    sliceLoop n (code.encodeAll (us.drop k)) = (code.encodeAll (us.drop (k + n)), 0) := by
  induction n generalizing k with
  | zero => rfl
  | succ n ih =>
    have hnext := @utf8Next_drop us k (by omega)
    cases hp : code.encodeAll (us.drop k) with
    | nil =>
      have hlen := length_le_of_encodeAll_eq_nil hp
      omega
    | cons c p =>
      rw [hp] at hnext
      rw [sliceLoop, hnext, ih (k + 1) (by omega), Nat.add_assoc, Nat.add_comm 1 n]

section Bytes

variable {s : Subject} {cells : List ℕ} {i n : ℕ}

theorem extract_chars (s : Subject) (range : ℕ × ℕ) :
    (s.extract range).chars = (s.chars.drop range.1).take (range.2 - range.1) := by
  cases s with
  | bytes bs => simp [Subject.extract, Subject.chars, List.map_take, List.map_drop]
  | text us => simp [Subject.extract, Subject.chars, textChars, List.map_take, List.map_drop]

/-- The bytes of the characters between two indexes. -/
theorem extract_start (s : Subject) (i n : ℕ) :
    (s.extract (i, i + n)).prop.start =
      (s.prop.start.drop (s.offset i)).take (s.offset (i + n) - s.offset i) := by
  rw [← Subject.chars_flatten, ← s.chars_flatten, extract_chars]
  exact (Segments.take_drop_offset s.chars (Nat.le_add_right i n)).symm

theorem extract_length (s : Subject) (hn : i + n ≤ s.chars.length) :
    (s.extract (i, i + n)).prop.length = if s.prop.length = 0 then 0 else n := by
  cases s with
  | bytes bs => rfl
  | text us =>
    have hlen : (Subject.text us).chars.length = us.length := textChars_length us
    change ((us.drop i).take (i + n - i)).length = if us.length = 0 then 0 else n
    rw [List.length_take, List.length_drop]
    split_ifs <;> omega

/-- `njs_string_slice_string_prop` of a slice inside of the string. -/
theorem sliceStringProp_spec (hmem : InMemory s cells) (hn : i + n ≤ s.chars.length) :
    sliceStringProp s.prop cells ⟨i, n, s.chars.length⟩ = .ok (s.extract (i, i + n)).prop := by
  have hprop : (s.extract (i, i + n)).prop = ⟨(s.extract (i, i + n)).prop.start,
    (s.extract (i, i + n)).prop.length⟩ := rfl
  rw [hprop, extract_start, extract_length s hn]
  unfold sliceStringProp
  by_cases hs : s.prop.size = s.chars.length
  · have hs' : s.prop.size = s.prop.chars := by rw [hs, s.prop_chars]
    simp only
    rw [if_pos hs, if_pos (by omega), Subject.offset_eq_self hs' hn,
      Subject.offset_eq_self hs' (i := i) (by omega), Nat.add_sub_cancel_left]
  · have hs' : s.prop.size ≠ s.prop.chars := by rwa [s.prop_chars]
    have hnonempty : s.prop.length ≠ 0 := by
      intro hzero
      exact hs' (by rw [StringProp.chars, if_pos hzero])
    simp only
    rw [if_neg hs, if_neg hnonempty]
    by_cases hi : i < s.chars.length
    · obtain ⟨cells', hoffset⟩ := stringOffset_of_lt hs' hmem (Nat.le_of_lt hi) (.inl hi)
      obtain ⟨us, rfl, -⟩ := Subject.exists_text hs'
      have hdrop : (Subject.text us).prop.start.drop ((Subject.text us).offset i) =
          code.encodeAll (us.drop i) := drop_offset_text us i
      have hloop := sliceLoop_text us n i (by rwa [length_chars] at hn)
      rw [if_pos hi, hoffset]
      have hlen (k : ℕ) : (code.encodeAll (us.drop k)).length =
          (Subject.text us).prop.size - (Subject.text us).offset k := by
        rw [← drop_offset_text, List.length_drop]
        rfl
      have hle := (Subject.text us).offset_le_size (i + n)
      have hmono := (Subject.text us).offset_mono (Nat.le_add_right i n)
      have hcount : (code.encodeAll (us.drop i)).length -
        (code.encodeAll (us.drop (i + n))).length =
          (Subject.text us).offset (i + n) - (Subject.text us).offset i := by
        rw [hlen, hlen]
        omega
      simp only [bind, Except.bind, hdrop, hloop, Nat.sub_zero, hcount]
    · obtain rfl : n = 0 := by omega
      rw [if_neg hi, Nat.add_zero, Nat.sub_self, List.take_zero]

theorem stringNew_spec (env : Env) {start : List UInt8} {length : ℕ}
    (hsize : start.length ≤ maxLength) (hlength : length ≤ start.length) :
    Returns env (stringNew env start length) (fun v => v.prop = ⟨start, length⟩) := by
  refine (stringAlloc_fill_spec env hsize).mono fun v ⟨halloc, hbytes⟩ => ?_
  have hlen : v.length = length := by
    rw [halloc.length_eq]
    split_ifs with hshort
    · simp only [shortMax] at hshort
      omega
    · rfl
  rw [StringValue.prop, hbytes, hlen]

theorem prop_length_le_size (s : Subject) : s.prop.length ≤ s.prop.size := by
  cases s with
  | bytes bs => exact Nat.zero_le _
  | text us => exact (encodeAll_length us).1

/-- Every string of at most the maximal size is the string of a value. -/
theorem exists_value (s : Subject) (hsize : s.prop.size ≤ maxLength) :
    ∃ v : StringValue, v.prop = s.prop := by
  let env : Env := ⟨fun _ => true, fun _ => 0⟩
  obtain ⟨v, -, hv⟩ := (stringNew_spec env hsize (prop_length_le_size s)).exists_ok fun _ => rfl
  exact ⟨v, hv⟩

theorem prop_of_chars_eq_nil {t : Subject} (ht : t.chars = []) : t.prop = ⟨[], 0⟩ := by
  have hstart := t.start_eq_nil_iff.mpr ht
  have hle := prop_length_le_size t
  rw [StringProp.size, hstart] at hle
  change (⟨t.prop.start, t.prop.length⟩ : StringProp) = _
  rw [hstart, Nat.le_zero.mp hle]

/-- The slice of the source and the characters between the indexes are the same string. -/
theorem Selects.extract_eq {range : ℕ × ℕ} (h : Selects s.chars.length (i, n) range) :
    (s.extract (i, i + n)).prop = (s.extract range).prop := by
  rcases h.same with ⟨hn, hempty⟩ | ⟨hstart, hstop⟩
  · have hzero : (n : ℤ) = 0 := hn
    obtain rfl : n = 0 := by exact_mod_cast hzero
    rw [prop_of_chars_eq_nil (by simp [extract_chars]), prop_of_chars_eq_nil]
    rw [extract_chars]
    rcases hempty with hle | hle
    · rw [Nat.sub_eq_zero_of_le hle, List.take_zero]
    · rw [List.drop_eq_nil_of_le hle, List.take_nil]
  · have hi : (i : ℤ) = range.1 := hstart
    have hj : (i : ℤ) + n = range.2 := hstop
    rw [show i + n = range.2 by exact_mod_cast hj, show i = range.1 by exact_mod_cast hi]

/-- `njs_string_slice` of a slice that stands for the characters between two indexes. -/
theorem stringSlice_spec (env : Env) (hmem : InMemory s cells) (hsize : s.prop.size ≤ maxLength)
    {slice : ℤ × ℤ} {range : ℕ × ℕ} (h : Selects s.chars.length slice range) :
    Returns env (stringSlice env s.prop cells slice)
      (fun v => v.prop = (s.extract range).prop) := by
  obtain ⟨start, count⟩ := slice
  obtain ⟨i, rfl⟩ := Int.eq_ofNat_of_zero_le h.start
  obtain ⟨n, rfl⟩ := Int.eq_ofNat_of_zero_le h.count
  have hfits : i + n ≤ s.chars.length := by
    have hle : (i : ℤ) + n ≤ s.chars.length := h.fits
    exact_mod_cast hle
  rw [← h.extract_eq]
  unfold stringSlice
  simp only [Int.toNat_natCast, s.prop_chars, sliceStringProp_spec hmem hfits, bind, Except.bind]
  have hle := prop_length_le_size (s.extract (i, i + n))
  split_ifs with hempty
  · refine stringNew_spec env ?_ hle
    rw [extract_start, List.length_take, List.length_drop]
    simp only [StringProp.size] at hsize
    omega
  · refine .ok rfl ?_
    have hnil := List.length_eq_zero_iff.mp (not_not.mp hempty)
    rw [prop_of_chars_eq_nil ((s.extract (i, i + n)).start_eq_nil_iff.mp hnil)]
    rfl

end Bytes

/-! ### The four functions -/

section Parts

variable {s : Subject} {args : List Number}

/-- What the four functions return, in terms of the converted arguments. -/
theorem parts_spec (hsize : s.prop.size ≤ maxLength) (args : List Number) {env : Env}
    {cells : List ℕ} (hmem : InMemory s cells) :
    Returns env (prototypeSlice env s.prop cells args) (fun v => v.prop =
      (s.extract (sliceRange s.chars.length (args.map converted))).prop) ∧
    Returns env (prototypeSubstring env s.prop cells args) (fun v => v.prop =
      (s.extract (substringRange s.chars.length (args.map converted))).prop) ∧
    Returns env (prototypeSubstr env s.prop cells args) (fun v => v.prop =
      (s.extract (substrRange s.chars.length (args.map converted))).prop) ∧
    Returns env (prototypeCharAt env s.prop cells args)
      (fun v => v.prop = (s.extract (charAtRange (args.map converted))).prop) := by
  have hlen : s.chars.length ≤ maxLength := Nat.le_trans s.length_le_size hsize
  unfold prototypeSlice prototypeSubstring prototypeSubstr prototypeCharAt
  rw [s.prop_chars]
  exact ⟨stringSlice_spec env hmem hsize (sliceArgs_selects hlen args),
    stringSlice_spec env hmem hsize (substringSlice_selects hlen args),
    stringSlice_spec env hmem hsize (substrSlice_selects hlen args),
    stringSlice_spec env hmem hsize (charAtSlice_selects hlen args)⟩

/-- A string is determined by its bytes and its kind. -/
theorem extract_inj {range range' : ℕ × ℕ}
    (h : (s.extract range).prop = (s.extract range').prop) :
    s.extract range = s.extract range' := by
  have hstart := congrArg StringProp.start h
  cases s with
  | bytes bs => exact congrArg Subject.bytes hstart
  | text us => exact congrArg Subject.text (code.encodeAll_injective hstart)

/-- Two results of one call are the same. -/
theorem returns_unique {env : Env} (henv : ∀ n, env.mpAlloc n = true)
    {x : Result StringValue} {p p' : StringProp} (h : Returns env x fun v => v.prop = p)
    (h' : Returns env x fun v => v.prop = p') : p = p' := by
  obtain ⟨v, hv, rfl⟩ := h.exists_ok henv
  obtain ⟨v', hv', rfl⟩ := h'.exists_ok henv
  rw [Except.ok.inj (hv.symm.trans hv')]

end Parts

/-- The four functions select the characters that they should exactly if the arguments as they
are taken select them. -/
theorem partsHold_iff (s : Subject) (args : List Number) (hsize : s.prop.size ≤ maxLength) :
    PartsHold s args ↔ PartsSafe s args := by
  constructor
  · intro hholds
    let env : Env := ⟨fun _ => true, fun _ => 0⟩
    have henv : ∀ n, env.mpAlloc n = true := fun _ => rfl
    have hmem := inMemory_replicate s
    obtain ⟨hslice, hsubstring, hsubstr, hcharAt⟩ := hholds env _ hmem
    obtain ⟨hslice', hsubstring', hsubstr', hcharAt'⟩ := parts_spec hsize args hmem
    exact ⟨extract_inj (returns_unique henv hslice' hslice),
      extract_inj (returns_unique henv hsubstring' hsubstring),
      extract_inj (returns_unique henv hsubstr' hsubstr),
      extract_inj (returns_unique henv hcharAt' hcharAt)⟩
  · rintro ⟨hslice, hsubstring, hsubstr, hcharAt⟩ env cells hmem
    have hspec := @parts_spec _ hsize args env _ hmem
    rw [hslice, hsubstring, hsubstr, hcharAt] at hspec
    exact hspec

/-- A function of the integers that numbers are truncated to does not see a conversion that
keeps them. -/
theorem elim_converted {β : Type} {args : List Number} (k : ℕ) (d : β) (f : Number → β)
    (h : ∀ n ∈ args, f (converted n) = f n) :
    (args.map converted)[k]?.elim d f = args[k]?.elim d f := by
  rw [List.getElem?_map]
  cases hn : args[k]? with
  | none => rfl
  | some n => exact h n (List.mem_of_getElem? hn)

/-- The condition is met if no argument is beyond `2 ^ 53`. -/
theorem partsSafe_of_exact {s : Subject} {args : List Number} (h : ∀ n ∈ args, n.Exact) :
    PartsSafe s args := by
  have hsame {q : ℚ} (hq : .finite q ∈ args) :
      Njs.truncate ((numberToInt64 q : ℤ) : ℚ) = Njs.truncate q := by
    rw [truncate_intCast, Njs.Array.numberToInt64_of_exact (h _ hq)]
  have hrelative (length : ℕ) : ∀ n ∈ args,
      relativeIndex (converted n) length = relativeIndex n length := by
    rintro (- | - | - | q) hn
    · rfl
    · rfl
    · rfl
    · simp only [relativeIndex, converted, hsame hn]
  have hclamp (length : ℕ) : ∀ n ∈ args,
      clampCount (converted n) length = clampCount n length := by
    rintro (- | - | - | q) hn
    · rfl
    · rfl
    · rfl
    · simp only [clampCount, converted, hsame hn]
  have hindex : ∀ n ∈ args, indexOfNumber (converted n) = indexOfNumber n := by
    rintro (- | - | - | q) hn
    · rfl
    · rfl
    · rfl
    · simp only [indexOfNumber, converted, hsame hn]
  have hrange (length : ℕ) : sliceRange length (args.map converted) = sliceRange length args ∧
      substringRange length (args.map converted) = substringRange length args ∧
      substrRange length (args.map converted) = substrRange length args ∧
      charAtRange (args.map converted) = charAtRange args := by
    simp only [sliceRange, substringRange, substrRange, charAtRange]
    rw [elim_converted 0 0 _ (hrelative length), elim_converted 1 length _ (hrelative length),
      elim_converted 0 0 _ (hclamp length), elim_converted 1 length _ (hclamp length),
      elim_converted 1 _ (fun n => clampCount n _) (hclamp _), elim_converted 0 _ _ hindex]
    exact ⟨rfl, rfl, rfl, rfl⟩
  obtain ⟨hslice, hsubstring, hsubstr, hcharAt⟩ := hrange s.chars.length
  exact ⟨congrArg s.extract hslice, congrArg s.extract hsubstring, congrArg s.extract hsubstr,
    congrArg s.extract hcharAt⟩

/-- A string and arguments with which the four functions do what they should. -/
theorem oneLetter_partsHold : PartsHold (.text oneLetter) [.finite 0, .finite 1] := by
  refine (partsHold_iff (.text oneLetter) [.finite 0, .finite 1] (by decide)).mpr
    (partsSafe_of_exact fun n hn => ?_)
  simp only [List.mem_cons, List.not_mem_nil, or_false] at hn
  rcases hn with rfl | rfl <;> exact ⟨by decide, by decide⟩

/-- The end `2 ^ 64` is taken for zero. -/
theorem oneLetter_not_partsHold :
    ¬ PartsHold (.text oneLetter) [.finite 0, .finite (2 ^ 64)] := by
  intro hholds
  have hsafe := (partsHold_iff _ _ (by decide)).mp hholds
  have hempty : sliceRange 1 ([.finite 0, .finite (2 ^ 64)].map converted) = (0, 0) := by
    decide
  have hwhole : sliceRange 1 [.finite 0, .finite (2 ^ 64)] = (0, 1) := by decide
  have heq := hsafe.1
  rw [show (Subject.text oneLetter).chars.length = 1 from rfl, hempty, hwhole] at heq
  exact absurd heq (by simp [Subject.extract, oneLetter])

end Njs.Str
