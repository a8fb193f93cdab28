import Njs.Array.Storage
import Njs.Regexp.Engine
import Njs.Str.Slice
import Njs.Lib.Splitting
import Njs.Regexp.Runs

/-!
# Splitting and joining

`split` of a string at a string, `join` of an array, and the array of strings between them. An
array has room for some values, and is moved to a larger block when there is no room left.
-/

namespace Njs.Str

open Regexp (Kind kindOf calcLength)

/-- `sizeof(njs_array_t)`. -/
def sizeofArray : ℕ := 56

/-- `sizeof(njs_value_t)`. -/
def sizeofValue : ℕ := 16

/-- An `njs_array_t` of strings. -/
structure StringArray where
  values : List StringValue
  /-- The number of values for which there is room. -/
  size : ℕ

/-- `njs_array_alloc` of an array without elements. -/
def stringArrayAlloc (env : Env) (spare : ℕ) : Result StringArray :=
  if env.mpAlloc sizeofArray ∧ env.mpAlloc (spare * sizeofValue) then .ok ⟨[], spare⟩
  else .error (.throw .memoryError)

/-- The size of the block to which `njs_array_expand` moves an array. -/
def expandedSize (length : ℕ) : ℕ :=
  if length + 1 < 16 then (length + 1) * 2 else length + 1 + (length + 1) / 2

/-- `njs_array_expand` by one value at the end. -/
def stringArrayExpand (env : Env) (array : StringArray) : Result StringArray :=
  if array.values.length < array.size then .ok array
  else if expandedSize array.values.length > Array.maxLength then
    .error (.throw .memoryError)
  else if env.mpAlloc (expandedSize array.values.length * sizeofValue) then
    .ok { array with size := expandedSize array.values.length }
  else .error (.throw .memoryError)

/-- `njs_array_string_add`. -/
def arrayStringAdd (env : Env) (array : StringArray) (start : List UInt8) (length : ℕ) :
    Result StringArray := do
  let array ← stringArrayExpand env array
  let v ← stringNew env start length
  .ok { array with values := array.values ++ [v] }

/-- `njs_string_split_part_add`. -/
def splitPartAdd (env : Env) (array : StringArray) (kind : Kind) (start : List UInt8) :
    Result StringArray :=
  arrayStringAdd env array start (calcLength kind start)

/-- The end of a part, and the place after the separator. An empty separator is after one
character. -/
def splitPlaces (string : StringProp) (kind : Kind) (split : StringProp) (p : ℕ) : ℕ × ℕ :=
  if split.size = 0 then
    let p := if kind ≠ .byte then string.size - (utf8Next (string.start.drop p)).length else p + 1
    (p, p)
  else (p, p + split.size)

/-- The loop of `njs_string_prototype_split` for a string. Every iteration but the last is over
a byte at least, so the size is fuel enough. -/
def splitLoop (env : Env) (string : StringProp) (kind : Kind) (split : StringProp) :
    ℕ → ℕ → ℕ → StringArray → Result StringArray
  | 0, _, _, array => .ok array
  | fuel + 1, start, limit, array => do
    let found ← searchLoop string.start split.start (string.size - (split.size - 1)) (· + 1)
      (string.size + 2) start start
    let places := splitPlaces string kind split (found.getD string.size)
    let array ← splitPartAdd env array kind
      ((string.start.drop start).take (places.1 - start))
    if limit - 1 ≠ 0 ∧ places.1 < string.size then
      splitLoop env string kind split fuel places.2 (limit - 1) array
    else .ok array

/-- `njs_number_to_uint32`. Where the conversion of C is undefined, it gives 0. -/
def numberToUint32 : Number → ℕ
  | .finite q => unsigned 32 (numberToInt64 q)
  | _ => 0

/-- `njs_string_prototype_split` for a separator that is not a regular expression. -/
def prototypeSplit (env : Env) (this : StringValue) (separator : Option StringProp)
    (limit : Option Number) : Result (List StringValue) := do
  let array ← stringArrayAlloc env Array.spareLength
  let limit := limit.elim (2 ^ 32 - 1) numberToUint32
  let string := this.prop
  if limit = 0 then .ok []
  else if string.size = 0 then .ok [this]
  else match separator with
    | none => .ok [this]
    | some split =>
      if string.size < split.size then .ok [this]
      else do
        let array ← splitLoop env string (kindOf string) split (string.size + 1) 0 limit array
        .ok array.values

/-! ### Joining -/

/-- An element of an array that is joined. -/
inductive JoinElement (α : Type)
  /-- An element that is not there, `undefined` or `null`. -/
  | empty
  | string (v : StringValue)
  /-- A value that is converted to a string. -/
  | other (a : α)

variable {α : Type}

/-- Whether an element is copied to `values` before the conversions. -/
def JoinElement.isOther : JoinElement α → Bool
  | other _ => true
  | _ => false

/-- The string of an element, after its conversion. -/
def JoinElement.convert (toText : α → Result StringValue) :
    JoinElement α → Result (Option StringProp)
  | empty => .ok none
  | string v => .ok (some v.prop)
  | other a => do
    let v ← toText a
    .ok (some v.prop)

/-- The conversions of all elements, in their order. -/
def convertAll (toText : α → Result StringValue) :
    List (JoinElement α) → Result (List (Option StringProp))
  | [] => .ok []
  | e :: elements => do
    let string ← e.convert toText
    let strings ← convertAll toText elements
    .ok (string :: strings)

/-- The sum of the sizes. -/
def sizesSum (strings : List (Option StringProp)) : ℕ :=
  (strings.map fun string => string.elim 0 StringProp.size).sum

/-- The sum of the lengths. -/
def lengthsSum (strings : List (Option StringProp)) : ℕ :=
  (strings.map fun string => string.elim 0 StringProp.length).sum

/-- Whether `mask` is zero after the loop: a byte string is among the strings. -/
def someBytes (strings : List (Option StringProp)) : Bool :=
  strings.any fun string => string.elim false fun string => string.length = 0 ∧ string.size ≠ 0

/-- The loop that copies the strings with the separator between them. -/
def joinCopies (separator : List UInt8) : List (Option StringProp) → List UInt8
  | [] => []
  | [string] => string.elim [] StringProp.start
  | string :: strings =>
    string.elim [] StringProp.start ++ separator ++ joinCopies separator strings

/-- `njs_string_comma`. -/
def commaString : StringProp := ⟨[0x2C], 1⟩

/-- `njs_array_prototype_join` of an array. -/
def prototypeJoin (env : Env) (toText : α → Result StringValue) (elements : List (JoinElement α))
    (separator : Option StringProp) : Result StringValue :=
  let separator := separator.getD commaString
  let max := (elements.filter JoinElement.isOther).length
  if elements = [] then .ok emptyString
  else if max ≠ 0 ∧ env.mpAlloc (sizeofValue * max) = false then .error (.throw .memoryError)
  else do
    let strings ← convertAll toText elements
    let size := sizesSum strings + separator.size * (elements.length - 1)
    let length := lengthsSum strings + separator.length * (elements.length - 1)
    let v ← stringAlloc env size (if someBytes strings then 0 else length)
    v.fill (joinCopies separator.start strings)

end Njs.Str

/-!
## Splitting and joining a text

A text is split at the first occurrence of the separator, and then the rest of it. An empty
separator is between any two code points. The parts joined with the separator are the text.
-/

namespace Njs.Str

open Utf8 Lib
open Regexp (Kind kindOf calcLength calcLength_text)

/-- The result is a value with the property `P`, unless an allocation is refused or an array of
so many elements may be too large. -/
def Delivers {α : Type} (env : Env) (count : ℕ) (x : Result α) (P : α → Prop) : Prop :=
  (∃ a, x = .ok a ∧ P a) ∨ (x = .error (.throw .memoryError) ∧
    ((∃ n, env.mpAlloc n = false) ∨ Array.maxLength < 2 * count))

/-- The code points between the occurrences of a separator in a text. -/
def textParts (us : List CodePoint) : Subject → List (List CodePoint)
  | .text vs => splitOn vs us
  | .bytes bs => if bs = [] then splitOn [] us else [us]

/-- The separator is a text, or a byte string that is empty or does not occur in the text. -/
def Separates (us : List CodePoint) : Subject → Prop
  | .text _ => True
  | .bytes bs => bs = [] ∨ ∀ off, ¬ FoundAt (.text us) (.bytes bs) off

/-- `split` cuts a text into parts that `join` puts together, no part contains the separator or
each is one code point, and with a limit there are the first `count` of them. -/
def SplitHolds (us : List CodePoint) (t : Subject) (limit : Number) (count : ℕ) : Prop :=
  ∃ parts : List StringProp,
    (∀ env this, this.prop = (Subject.text us).prop →
      Delivers env parts.length (prototypeSplit env this (some t.prop) none)
        (fun values => values.map StringValue.prop = parts)) ∧
    (∀ env (α : Type) (toText : α → Result StringValue) (values : List StringValue),
      values.map StringValue.prop = parts →
      Returns env (prototypeJoin env toText (values.map JoinElement.string) (some t.prop))
        (fun v => v.prop = (Subject.text us).prop)) ∧
    (t.chars ≠ [] → ∀ part ∈ parts, ¬ t.prop.start <:+: part.start) ∧
    (t.chars = [] → parts = us.map fun u => (Subject.text [u]).prop) ∧
    ∀ env this, this.prop = (Subject.text us).prop →
      Delivers env parts.length (prototypeSplit env this (some t.prop) (some limit))
        (fun values => values.map StringValue.prop = parts.take count)

/-! ### Results with two reasons for a memory error -/

section Delivers

variable {α β : Type} {env : Env} {count : ℕ} {x : Result α} {P Q : α → Prop}

theorem Delivers.of_returns (h : Returns env x P) : Delivers env count x P := by
  rcases h with h | ⟨herr, hn⟩
  · exact .inl h
  · exact .inr ⟨herr, .inl hn⟩

/-- Where every request is granted and the array is not too large, the value is there. -/
theorem Delivers.exists_ok (h : Delivers env count x P) (henv : ∀ n, env.mpAlloc n = true)
    (hcount : 2 * count ≤ Array.maxLength) : ∃ a, x = .ok a ∧ P a := by
  rcases h with h | ⟨-, ⟨n, hn⟩ | hlarge⟩
  · exact h
  · simp [henv n] at hn
  · omega

theorem Delivers.mono (h : Delivers env count x P) (himp : ∀ a, P a → Q a) :
    Delivers env count x Q := by
  rcases h with ⟨a, hx, ha⟩ | h
  · exact .inl ⟨a, hx, himp a ha⟩
  · exact .inr h

theorem Delivers.bind {f : α → Result β} {R : β → Prop} (h : Delivers env count x P)
    (hf : ∀ a, P a → Delivers env count (f a) R) : Delivers env count (x >>= f) R := by
  rcases h with ⟨a, rfl, ha⟩ | ⟨rfl, hn⟩
  · exact hf a ha
  · exact .inr ⟨rfl, hn⟩

end Delivers

/-! ### The array -/

section StringArray

variable {env : Env} {array : StringArray} {count : ℕ}

theorem expandedSize_le (length : ℕ) : expandedSize length ≤ 2 * (length + 1) := by
  unfold expandedSize
  split_ifs <;> omega

theorem stringArrayExpand_spec (hcount : array.values.length + 1 ≤ count) :
    Delivers env count (stringArrayExpand env array)
      (fun array' => array'.values = array.values) := by
  have hle := expandedSize_le array.values.length
  unfold stringArrayExpand
  split_ifs with hroom hlarge halloc
  · exact .inl ⟨array, rfl, rfl⟩
  · exact .inr ⟨rfl, .inr (by omega)⟩
  · exact .inl ⟨_, rfl, rfl⟩
  · exact .inr ⟨rfl, .inl ⟨_, by simpa using halloc⟩⟩

theorem stringArrayAlloc_spec (spare : ℕ) :
    Returns env (stringArrayAlloc env spare) (fun array => array.values = []) := by
  unfold stringArrayAlloc
  split_ifs with halloc
  · exact .ok rfl rfl
  · refine .inr ⟨rfl, ?_⟩
    rcases not_and_or.mp halloc with h | h
    · exact ⟨_, by simpa using h⟩
    · exact ⟨_, by simpa using h⟩

/-- A part of a text that is added to the array. -/
theorem splitPartAdd_spec {us vs : List CodePoint} (hsub : ∀ v ∈ vs, v ∈ us)
    (hsize : (code.encodeAll vs).length ≤ maxLength)
    (hcount : array.values.length + 1 ≤ count) :
    Delivers env count (splitPartAdd env array (kindOf (Subject.text us).prop)
        (code.encodeAll vs))
      (fun array' => array'.values.map StringValue.prop =
        array.values.map StringValue.prop ++ [(Subject.text vs).prop]) := by
  unfold splitPartAdd arrayStringAdd
  rw [calcLength_text us vs hsub]
  refine (stringArrayExpand_spec hcount).bind fun array' harray' => ?_
  have hnew := stringNew_spec env hsize (encodeAll_length vs).1
  refine (Delivers.of_returns hnew).bind fun v hv => .inl ⟨_, rfl, ?_⟩
  change (array'.values ++ [v]).map StringValue.prop = _
  rw [List.map_append, harray', List.map_singleton, hv]
  rfl

end StringArray

/-! ### The loop -/

/-- One round of the loop, from one character of a text: the part goes to the character
`stop`, and if this is not the end then the next one begins at `next`. -/
structure Round (us : List CodePoint) (t : Subject) (start stop next : ℕ) : Prop where
  start_le : start ≤ stop
  stop_le : stop ≤ us.length
  lt_next : stop < us.length → start < next
  places : ∃ found after, searchLoop (Subject.text us).prop.start t.prop.start
      ((Subject.text us).prop.size - (t.prop.size - 1)) (· + 1) ((Subject.text us).prop.size + 2)
      ((Subject.text us).offset start) ((Subject.text us).offset start) = .ok found ∧
    splitPlaces (Subject.text us).prop (kindOf (Subject.text us).prop) t.prop
      (found.getD (Subject.text us).prop.size) = ((Subject.text us).offset stop, after) ∧
    (stop < us.length → after = (Subject.text us).offset next)

section Loop

variable {us : List CodePoint} {t : Subject} {env : Env}

/-- The parts from one character on, if every round begins with one of them. -/
theorem splitLoop_spec {valid : ℕ → Prop} {parts : ℕ → List (List CodePoint)}
    (hsize : (Subject.text us).prop.size ≤ maxLength)
    (hround : ∀ i, valid i → ∃ stop next, Round us t i stop next ∧
      (stop < us.length → valid next) ∧
      parts i = (us.drop i).take (stop - i) :: if stop < us.length then parts next else [])
    {fuel i limit count : ℕ} (hi : valid i) (hfuel : us.length + 1 - i ≤ fuel)
    (hlimit : limit ≠ 0) (array : StringArray)
    (hcount : array.values.length + ((parts i).take limit).length ≤ count) :
    Delivers env count (splitLoop env (Subject.text us).prop (kindOf (Subject.text us).prop)
        t.prop fuel ((Subject.text us).offset i) limit array)
      (fun array' => array'.values.map StringValue.prop = array.values.map StringValue.prop ++
        ((parts i).take limit).map fun part => (Subject.text part).prop) := by
  induction fuel generalizing i limit array with
  | zero =>
    obtain ⟨stop, next, hrounds, -⟩ := hround i hi
    have hstart := hrounds.start_le
    have hstop := hrounds.stop_le
    omega
  | succ fuel ih =>
    obtain ⟨stop, next, hrounds, hvalid, hparts⟩ := hround i hi
    obtain ⟨found, after, hfound, hplaces, hafter⟩ := hrounds.places
    obtain ⟨limit, rfl⟩ := Nat.exists_eq_succ_of_ne_zero hlimit
    have hlt : (Subject.text us).offset stop < (Subject.text us).prop.size ↔
        stop < us.length := by
      rw [← Subject.offset_length, length_chars]
      constructor
      · intro h
        by_contra hge
        have heq : stop = us.length := Nat.le_antisymm hrounds.stop_le (Nat.le_of_not_lt hge)
        rw [heq] at h
        exact Nat.lt_irrefl _ h
      · exact fun h => Subject.offset_lt _ h (by rw [length_chars])
    have hpart : ((Subject.text us).prop.start.drop ((Subject.text us).offset i)).take
        ((Subject.text us).offset stop - (Subject.text us).offset i) =
          code.encodeAll ((us.drop i).take (stop - i)) := by
      have hextract := extract_start (.text us) i (stop - i)
      rw [Nat.add_sub_cancel' hrounds.start_le] at hextract
      exact hextract.symm
    have hpartSize : (code.encodeAll ((us.drop i).take (stop - i))).length ≤ maxLength := by
      rw [← hpart, List.length_take, List.length_drop]
      simp only [StringProp.size] at hsize
      omega
    rw [hparts, List.take_succ_cons, List.length_cons] at hcount
    rw [hparts, List.take_succ_cons, List.map_cons, splitLoop, hfound]
    simp only [bind, Except.bind]
    rw [hplaces, hpart]
    refine (splitPartAdd_spec (fun v hv => List.mem_of_mem_drop (List.mem_of_mem_take hv))
      hpartSize (by omega)).bind fun array' harray' => ?_
    have hlen := congrArg List.length harray'
    rw [List.length_append, List.length_map, List.length_map, List.length_singleton] at hlen
    simp only [hlt, Nat.succ_eq_add_one, Nat.add_sub_cancel]
    by_cases hmore : limit ≠ 0 ∧ stop < us.length
    · rw [if_pos hmore.2] at hcount ⊢
      rw [if_pos hmore, hafter hmore.2]
      have hnext := hrounds.lt_next hmore.2
      refine (ih (hvalid hmore.2) (by omega) hmore.1 array' (by omega)).mono fun array'' h => ?_
      rw [h, harray', List.append_assoc, List.singleton_append]
    · rw [if_neg hmore]
      refine .inl ⟨array', rfl, ?_⟩
      simp only [harray']
      rcases not_and_or.mp hmore with h | h
      · rw [not_not.mp h, List.take_zero, List.map_nil]
      · rw [if_neg h, List.take_nil, List.map_nil]

/-! ### The rounds -/

theorem kindOf_text_ne_byte (hus : us ≠ []) : kindOf (Subject.text us).prop ≠ .byte := by
  have hlen : (Subject.text us).prop.length ≠ 0 := List.length_pos_iff.mpr hus |>.ne'
  unfold kindOf
  rw [if_pos hlen]
  split_ifs <;> simp

/-- An empty separator is found at once, and one character is the part. -/
theorem round_nil (ht : t.chars = []) {i : ℕ} (hi : i < us.length) :
    Round us t i (i + 1) (i + 1) where
  start_le := Nat.le_succ i
  stop_le := hi
  lt_next := fun _ => Nat.lt_succ_self i
  places := by
    have hus : us ≠ [] := List.ne_nil_of_length_pos (by omega)
    have hle := (Subject.text us).offset_le_size i
    have hnext : (Subject.text us).prop.size -
        (utf8Next ((Subject.text us).prop.start.drop ((Subject.text us).offset i))).length =
          (Subject.text us).offset (i + 1) := by
      have hdrop : (Subject.text us).prop.start.drop ((Subject.text us).offset i) =
        code.encodeAll (us.drop i) := drop_offset_text us i
      rw [hdrop, utf8Next_drop hi]
      exact size_sub_rest us (i + 1)
    rw [prop_of_chars_eq_nil ht]
    refine ⟨some ((Subject.text us).offset i), _, searchLoop_nil ?_, ?_, fun _ => rfl⟩
    · simp only [StringProp.size, List.length_nil] at hle ⊢
      omega
    · unfold splitPlaces
      simp only [if_pos (kindOf_text_ne_byte hus), Option.getD_some, hnext]
      rfl

/-- A separator that does not occur any more: the rest is the part. -/
theorem round_none (ht : t.chars ≠ []) {i : ℕ} (hi : i ≤ us.length)
    (hnone : ∀ off, (Subject.text us).offset i ≤ off → ¬ FoundAt (.text us) t off) (next : ℕ) :
    Round us t i us.length next where
  start_le := hi
  stop_le := Nat.le_refl _
  lt_next := fun h => absurd h (Nat.lt_irrefl _)
  places := by
    have hsize := size_pos ht
    have hend : (Subject.text us).offset us.length = (Subject.text us).prop.size := by
      rw [← Subject.offset_length, length_chars]
    rcases byteScan_spec (s := .text us) ht ((Subject.text us).offset i)
      ((Subject.text us).offset i) with ⟨hok, -⟩ | ⟨off, hoff, -, hat, -⟩
    · refine ⟨none, (Subject.text us).prop.size + t.prop.size, hok, ?_,
        fun h => absurd h (Nat.lt_irrefl _)⟩
      unfold splitPlaces
      rw [if_neg (by omega), hend]
      rfl
    · exact absurd hat (hnone off hoff)

/-- A text separator: the part goes to its first place in the rest. -/
theorem round_some {vs : List CodePoint} (hvs : vs ≠ []) {i k : ℕ} (hi : i ≤ us.length)
    (hk : firstPlace vs (us.drop i) = some k) :
    Round us (.text vs) i (i + k) (i + k + vs.length) ∧ i + k + vs.length ≤ us.length := by
  obtain ⟨hle, hat, hfirst⟩ := firstPlace_eq_some.mp hk
  have hend : i + k + vs.length ≤ us.length := by
    have hlen := hat.length_le
    rw [List.length_drop, List.length_drop] at hlen
    have hpos := List.length_pos_of_ne_nil hvs
    omega
  rw [List.drop_drop] at hat
  have ht : (Subject.text vs).chars ≠ [] := by
    intro hnil
    exact hvs (List.map_eq_nil_iff.mp hnil)
  have hplace (m : ℕ) (him : i ≤ m) (hm : vs <+: us.drop m) : i + k ≤ m := by
    by_contra hlt
    refine hfirst (m - i) (by omega) ?_
    rwa [List.drop_drop, Nat.add_sub_cancel' him]
  refine ⟨⟨by omega, by omega, fun _ => ?_, ?_⟩, hend⟩
  · have hpos := List.length_pos_of_ne_nil hvs
    omega
  rcases byteScan_spec (s := .text us) ht ((Subject.text us).offset i)
    ((Subject.text us).offset i) with ⟨-, hnone⟩ | ⟨off, hoff, hok, hfound, hleast⟩
  · exact absurd (foundAt_offset_iff.mpr hat)
      (hnone _ ((Subject.text us).offset_mono (Nat.le_add_right i k)))
  · obtain ⟨m, hm, rfl⟩ := exists_offset_of_foundAt hvs hfound
    have him := Subject.le_of_offset_le _ (by rwa [length_chars]) hoff
    have hkm := hplace m him (foundAt_offset_iff.mp hfound)
    obtain rfl : m = i + k := by
      by_contra hne
      refine hleast _ ((Subject.text us).offset_mono (Nat.le_add_right i k)) ?_
        (foundAt_offset_iff.mpr hat)
      exact Subject.offset_lt _ (by omega) (by rw [length_chars]; omega)
    refine ⟨some ((Subject.text us).offset (i + k)), _, ?_, ?_, fun _ => rfl⟩
    · rwa [Nat.add_sub_cancel' hoff] at hok
    · have hsize := size_pos ht
      unfold splitPlaces
      rw [if_neg (by omega), Option.getD_some, offset_add_of_leading hat]

/-- An empty separator has the parts of an empty text. -/
theorem textParts_nil (ht : t.chars = []) (us : List CodePoint) :
    textParts us t = us.map fun u => [u] := by
  rw [← splitOn_nil]
  cases t with
  | bytes bs => exact if_pos (List.map_eq_nil_iff.mp ht)
  | text vs => rw [textParts, List.map_eq_nil_iff.mp ht]

theorem textParts_bytes {bs : List UInt8} (ht : (Subject.bytes bs).chars ≠ [])
    (us : List CodePoint) : textParts us (.bytes bs) = [us] :=
  if_neg fun hbs => ht (by rw [hbs]; rfl)

/-- Where a round may begin: after an empty separator there is a character. -/
def RoundStart (us : List CodePoint) (t : Subject) (i : ℕ) : Prop :=
  if t.chars = [] then i < us.length else i ≤ us.length

/-- Every round begins with the first part of the rest. -/
theorem textParts_round (hsep : Separates us t) (i : ℕ) (hi : RoundStart us t i) :
    ∃ stop next, Round us t i stop next ∧ (stop < us.length → RoundStart us t next) ∧
      textParts (us.drop i) t =
        (us.drop i).take (stop - i) ::
          if stop < us.length then textParts (us.drop next) t else [] := by
  by_cases ht : t.chars = []
  · simp only [RoundStart, if_pos ht] at hi ⊢
    refine ⟨i + 1, i + 1, round_nil ht hi, id, ?_⟩
    rw [textParts_nil ht, textParts_nil ht, List.drop_eq_getElem_cons hi, List.map_cons,
      Nat.add_sub_cancel_left, List.take_succ_cons, List.take_zero]
    split_ifs with hlt
    · rfl
    · rw [List.drop_eq_nil_of_le (by omega), List.map_nil]
  · simp only [RoundStart, if_neg ht] at hi ⊢
    have hlast {next : ℕ} (hround : Round us t i us.length next)
        (hparts : textParts (us.drop i) t = [us.drop i]) :
        ∃ stop next, Round us t i stop next ∧ (stop < us.length → next ≤ us.length) ∧
          textParts (us.drop i) t = (us.drop i).take (stop - i) ::
            if stop < us.length then textParts (us.drop next) t else [] := by
      refine ⟨us.length, next, hround, fun h => absurd h (Nat.lt_irrefl _), ?_⟩
      rw [hparts, if_neg (Nat.lt_irrefl _), List.take_of_length_le (by rw [List.length_drop])]
    cases t with
    | bytes bs =>
      have habsent := hsep.resolve_left fun hbs => ht (by rw [hbs]; rfl)
      exact hlast (round_none ht hi (fun off _ => habsent off) 0) (textParts_bytes ht _)
    | text vs =>
      have hvs : vs ≠ [] := fun hvs => ht (by rw [hvs]; rfl)
      cases hk : firstPlace vs (us.drop i) with
      | none =>
        refine hlast (round_none ht hi (fun off hoff hat => ?_) 0) (splitOn_of_none hvs hk)
        obtain ⟨m, hm, rfl⟩ := exists_offset_of_foundAt hvs hat
        have him := Subject.le_of_offset_le _ (by rwa [length_chars]) hoff
        refine (firstPlace_eq_none hvs).mp hk (m - i) ?_
        rw [List.drop_drop, Nat.add_sub_cancel' him]
        exact foundAt_offset_iff.mp hat
      | some k =>
        obtain ⟨hround, hend⟩ := round_some hvs hi hk
        have hpos := List.length_pos_of_ne_nil hvs
        refine ⟨i + k, i + k + vs.length, hround, fun _ => hend, ?_⟩
        rw [if_pos (by omega), Nat.add_sub_cancel_left]
        change splitOn vs (us.drop i) = _ :: splitOn vs _
        rw [splitOn_of_some hvs hk, List.drop_drop, Nat.add_assoc]

/-- A separator with more bytes than the text does not occur in it. -/
theorem textParts_of_size_lt (h : (Subject.text us).prop.size < t.prop.size) :
    textParts us t = [us] := by
  have ht : t.chars ≠ [] := fun hnil => by
    rw [prop_of_chars_eq_nil hnil] at h
    exact Nat.not_lt_zero _ h
  cases t with
  | bytes bs => exact textParts_bytes ht us
  | text vs =>
    have hvs : vs ≠ [] := fun hvs => ht (by rw [hvs]; rfl)
    refine splitOn_of_none hvs ((firstPlace_eq_none hvs).mpr fun i hat => ?_)
    have hle := (foundAt_offset_iff.mpr hat).add_le ht
    omega

theorem textParts_length_pos (hus : us ≠ []) : 0 < (textParts us t).length := by
  by_cases ht : t.chars = []
  · rw [textParts_nil ht, List.length_map]
    exact List.length_pos_of_ne_nil hus
  · cases t with
    | bytes bs => rw [textParts_bytes ht]; exact Nat.one_pos
    | text vs =>
      have hvs : vs ≠ [] := fun hvs => ht (by rw [hvs]; rfl)
      exact List.length_pos_of_ne_nil (splitOn_ne_nil hvs)

/-- `split` gives the first of the parts. -/
theorem prototypeSplit_spec (env : Env) (hus : us ≠ [])
    (hsize : (Subject.text us).prop.size ≤ maxLength) (hsep : Separates us t)
    {this : StringValue} (hthis : this.prop = (Subject.text us).prop) (limit : Option Number) :
    Delivers env (textParts us t).length (prototypeSplit env this (some t.prop) limit)
      (fun values => values.map StringValue.prop =
        ((textParts us t).take (limit.elim (2 ^ 32 - 1) numberToUint32)).map
          fun part => (Subject.text part).prop) := by
  unfold prototypeSplit
  refine (Delivers.of_returns (stringArrayAlloc_spec Array.spareLength)).bind
    fun array harray => ?_
  simp only
  generalize limit.elim (2 ^ 32 - 1) numberToUint32 = count
  have hwhole {n : ℕ} (hn : n ≠ 0) : [this].map StringValue.prop =
      ([us].take n).map fun part => (Subject.text part).prop := by
    obtain ⟨n, rfl⟩ := Nat.exists_eq_succ_of_ne_zero hn
    rw [List.take_succ_cons, List.take_nil, List.map_singleton, List.map_singleton, hthis]
  have hpos : (Subject.text us).prop.size ≠ 0 := by
    have hlen := (encodeAll_length us).1
    have hlt := List.length_pos_of_ne_nil hus
    change (code.encodeAll us).length ≠ 0
    omega
  rw [hthis, if_neg hpos]
  by_cases hcount : count = 0
  · rw [if_pos hcount, hcount]
    exact .inl ⟨[], rfl, by rw [List.take_zero]; rfl⟩
  · rw [if_neg hcount]
    split_ifs with hlt
    · refine .inl ⟨[this], rfl, ?_⟩
      rw [textParts_of_size_lt hlt]
      exact hwhole hcount
    · have hstart : RoundStart us t 0 := by
        have hlt := List.length_pos_of_ne_nil hus
        unfold RoundStart
        split_ifs <;> omega
      refine (splitLoop_spec hsize (textParts_round hsep) hstart ?_ hcount array ?_).bind
        fun array' harray' => .inl ⟨_, rfl, ?_⟩
      · have hlen := (encodeAll_length us).1
        change _ ≤ (code.encodeAll us).length + 1
        omega
      · rw [harray, List.drop_zero, List.length_take, List.length_nil]
        omega
      · rwa [harray, List.map_nil, List.nil_append, List.drop_zero] at harray'

/-! ### Joining -/

theorem isOther_filter_strings {α : Type} (values : List StringValue) :
    (values.map (JoinElement.string (α := α))).filter JoinElement.isOther = [] := by
  refine List.filter_eq_nil_iff.mpr fun e he => ?_
  obtain ⟨v, -, rfl⟩ := List.mem_map.mp he
  exact Bool.false_ne_true

theorem convertAll_strings {α : Type} (toText : α → Result StringValue)
    (values : List StringValue) :
    convertAll toText (values.map JoinElement.string) =
      .ok (values.map fun v => some v.prop) := by
  induction values with
  | nil => rfl
  | cons v values ih =>
    rw [List.map_cons, convertAll, ih]
    rfl

theorem joinCopies_eq (separator : List UInt8) (props : List StringProp) :
    joinCopies separator (props.map some) = separator.intercalate (props.map StringProp.start) := by
  induction props with
  | nil => rfl
  | cons prop props ih =>
    rcases props with - | ⟨prop', props⟩
    · simp [joinCopies]
    · rw [List.map_cons, List.map_cons, joinCopies, ← List.map_cons, ih]
      · exact (List.intercalate_cons_of_ne_nil (List.cons_ne_nil _ _)).symm
      · exact List.cons_ne_nil _ _

theorem encodeAll_intercalate (vs : List CodePoint) (parts : List (List CodePoint)) :
    (code.encodeAll vs).intercalate (parts.map code.encodeAll) =
      code.encodeAll (vs.intercalate parts) := by
  induction parts with
  | nil => simp
  | cons part parts ih =>
    rcases parts with - | ⟨part', parts⟩
    · simp
    · rw [List.map_cons, List.map_cons, List.intercalate_cons_cons, ← List.map_cons, ih,
        List.intercalate_cons_cons, code.encodeAll_append, code.encodeAll_append]

theorem someBytes_texts (parts : List (List CodePoint)) :
    someBytes (parts.map fun part => some (Subject.text part).prop) = false := by
  refine List.any_eq_false.mpr fun string hstring => ?_
  obtain ⟨part, -, rfl⟩ := List.mem_map.mp hstring
  simp only [Option.elim, decide_eq_true_eq, not_and_or, not_not]
  by_cases hpart : part = []
  · exact .inr (by rw [hpart]; rfl)
  · exact .inl (List.length_pos_iff.mpr hpart).ne'

/-- `join` of texts whose bytes and characters are those of a text. -/
theorem prototypeJoin_spec {α : Type} (toText : α → Result StringValue)
    {parts : List (List CodePoint)} (hparts : parts ≠ []) {values : List StringValue}
    (hvalues : values.map StringValue.prop = parts.map fun part => (Subject.text part).prop)
    (hbytes : t.prop.start.intercalate (parts.map code.encodeAll) = code.encodeAll us)
    (hlength : (parts.map List.length).sum + t.prop.length * (parts.length - 1) = us.length)
    (hsize : (Subject.text us).prop.size ≤ maxLength) :
    Returns env (prototypeJoin env toText (values.map JoinElement.string) (some t.prop))
      (fun v => v.prop = (Subject.text us).prop) := by
  have hcount := congrArg List.length hvalues
  rw [List.length_map, List.length_map] at hcount
  have hne : values.map (JoinElement.string (α := α)) ≠ [] := by
    rw [← List.length_pos_iff, List.length_map, hcount]
    exact List.length_pos_of_ne_nil hparts
  have hstrings : values.map (fun v => some v.prop) =
      (parts.map fun part => (Subject.text part).prop).map some := by
    rw [← hvalues, List.map_map]
    rfl
  have hcopies : joinCopies t.prop.start (values.map fun v => some v.prop) =
      code.encodeAll us := by
    rw [hstrings, joinCopies_eq, List.map_map]
    exact hbytes
  have hsizes : sizesSum (values.map fun v => some v.prop) +
      t.prop.size * (values.length - 1) = (code.encodeAll us).length := by
    rw [← hbytes, intercalate_length, List.length_map, hcount, hstrings, sizesSum, List.map_map,
      List.map_map, List.map_map]
    rfl
  have hlengths : lengthsSum (values.map fun v => some v.prop) +
      t.prop.length * (values.length - 1) = us.length := by
    rw [← hlength, hcount, hstrings, lengthsSum, List.map_map, List.map_map]
    rfl
  have hbyteless : someBytes (values.map fun v => some v.prop) = false := by
    rw [hstrings, List.map_map]
    exact someBytes_texts parts
  unfold prototypeJoin
  simp only [Option.getD_some, List.length_map]
  rw [if_neg hne, isOther_filter_strings, if_neg (by simp), convertAll_strings]
  simp only [bind, Except.bind]
  rw [hsizes, hlengths, hbyteless, hcopies]
  exact stringNew_spec env hsize (encodeAll_length us).1

/-- The separator is a text, or there is only one part. -/
theorem textParts_cases (t : Subject) :
    (∃ vs, t.prop = (Subject.text vs).prop ∧ ∀ us, textParts us t = splitOn vs us) ∨
      (t.chars ≠ [] ∧ ∀ us, textParts us t = [us]) := by
  by_cases ht : t.chars = []
  · refine .inl ⟨[], prop_of_chars_eq_nil ht, fun us => ?_⟩
    rw [textParts_nil ht, splitOn_nil]
  · cases t with
    | bytes bs => exact .inr ⟨ht, textParts_bytes ht⟩
    | text vs => exact .inl ⟨vs, rfl, fun us => rfl⟩

theorem textParts_bytes_join (t : Subject) (us : List CodePoint) :
    t.prop.start.intercalate ((textParts us t).map code.encodeAll) = code.encodeAll us := by
  rcases textParts_cases t with ⟨vs, hprop, hparts⟩ | ⟨-, hparts⟩
  · rw [hprop, hparts]
    exact (encodeAll_intercalate vs _).trans (congrArg _ (intercalate_splitOn vs us))
  · rw [hparts, List.map_singleton, List.intercalate_singleton]

theorem textParts_length_join (t : Subject) (us : List CodePoint) :
    ((textParts us t).map List.length).sum + t.prop.length * ((textParts us t).length - 1) =
      us.length := by
  rcases textParts_cases t with ⟨vs, hprop, hparts⟩ | ⟨-, hparts⟩
  · rw [hprop, hparts]
    have hlen := intercalate_length vs (splitOn vs us)
    rw [intercalate_splitOn] at hlen
    exact hlen.symm
  · rw [hparts]
    simp

/-- No part contains a separator that is not empty. -/
theorem not_infix_of_mem_textParts (hsep : Separates us t) (ht : t.chars ≠ []) :
    ∀ part ∈ textParts us t, ¬ t.prop.start <:+: (Subject.text part).prop.start := by
  rintro part hpart ⟨l, r, heq⟩
  have hat : FoundAt (.text part) t l.length := by
    refine ⟨r, ?_⟩
    rw [← heq, List.append_assoc, List.drop_left]
  cases t with
  | bytes bs =>
    rw [textParts_bytes ht, List.mem_singleton] at hpart
    subst hpart
    exact hsep.elim (fun hbs => ht (by rw [hbs]; rfl)) fun habsent => habsent _ hat
  | text vs =>
    have hvs : vs ≠ [] := fun hvs => ht (by rw [hvs]; rfl)
    obtain ⟨i, -, hi⟩ := exists_offset_of_foundAt hvs hat
    rw [hi] at hat
    obtain ⟨rest, hrest⟩ := foundAt_offset_iff.mp hat
    refine not_infix_of_mem_splitOn hvs us part hpart ⟨part.take i, rest, ?_⟩
    rw [List.append_assoc, hrest, List.take_append_drop]

theorem textParts_length_le (us : List CodePoint) (t : Subject) :
    (textParts us t).length ≤ us.length + 1 := by
  rcases textParts_cases t with ⟨vs, -, hparts⟩ | ⟨-, hparts⟩
  · rw [hparts]
    exact splitOn_length_le vs us
  · rw [hparts, List.length_singleton]
    exact Nat.le_add_left 1 us.length

end Loop

/-- `split` and `join` of a text that is not empty are inverse, and a limit is converted to 32
bits, if the separator is a text, or a byte string that is empty or does not occur. -/
theorem splitHolds_numberToUint32 {us : List CodePoint} {t : Subject} (hus : us ≠ [])
    (hsize : (Subject.text us).prop.size ≤ maxLength) (hsep : Separates us t) (limit : Number) :
    SplitHolds us t limit (numberToUint32 limit) := by
  refine ⟨(textParts us t).map fun part => (Subject.text part).prop, fun env this hthis => ?_,
    fun env α toText values hvalues => ?_, fun ht => ?_, fun ht => ?_, fun env this hthis => ?_⟩
  · have hspec := prototypeSplit_spec env hus hsize hsep hthis none
    rw [List.length_map]
    refine hspec.mono fun values hvalues => ?_
    have hle := textParts_length_le us t
    have hlen := (encodeAll_length us).1
    have hmax : maxLength < 2 ^ 31 := by decide
    have hbytes : (Subject.text us).prop.size = (code.encodeAll us).length := rfl
    rwa [Option.elim_none, List.take_of_length_le (by omega)] at hvalues
  · have hne : textParts us t ≠ [] := List.ne_nil_of_length_pos (textParts_length_pos hus)
    exact prototypeJoin_spec toText hne hvalues (textParts_bytes_join t us)
      (textParts_length_join t us) hsize
  · intro part hpart
    obtain ⟨part, hmem, rfl⟩ := List.mem_map.mp hpart
    exact not_infix_of_mem_textParts hsep ht part hmem
  · rw [textParts_nil ht, List.map_map]
    rfl
  · rw [List.length_map, ← List.map_take]
    exact prototypeSplit_spec env hus hsize hsep hthis (some limit)

/-- A letter split with the empty string. -/
theorem oneLetter_splitHolds : SplitHolds oneLetter (.text []) (.finite 1) 1 :=
  splitHolds_numberToUint32 (t := .text []) (List.cons_ne_nil _ _) (by decide) trivial
    (.finite 1)

/-- With a limit of `2 ^ 32` there are no parts, and `join` does not see that a separator is a
byte string. -/
theorem oneLetter_not_splitHolds :
    ¬ SplitHolds oneLetter (.text []) (.finite 4294967296) 4294967296 ∧
      ¬ SplitHolds oneLetter (.bytes [0x61]) (.finite 1) 1 := by
  let env : Env := ⟨fun _ => true, fun _ => 0⟩
  have henv : ∀ n, env.mpAlloc n = true := fun _ => rfl
  constructor
  · rintro ⟨parts, -, -, -, hparts, hlimit⟩
    have hsize : (Subject.text oneLetter).prop.size ≤ maxLength := by decide
    obtain ⟨this, hthis⟩ := exists_value (.text oneLetter) hsize
    obtain rfl := hparts rfl
    have hspec := prototypeSplit_spec (t := .text []) env (List.cons_ne_nil _ _) hsize trivial
      hthis (some (.finite 4294967296))
    obtain ⟨values, hok, hvalues⟩ := (hlimit env this hthis).exists_ok henv (by decide)
    obtain ⟨values', hok', hvalues'⟩ := hspec.exists_ok henv (by decide +kernel)
    obtain rfl := Except.ok.inj (hok.symm.trans hok')
    have hzero : numberToUint32 (.finite 4294967296) = 0 := by decide
    rw [Option.elim_some, hzero, List.take_zero, hvalues] at hvalues'
    exact absurd hvalues' (List.cons_ne_nil _ _)
  · rintro ⟨parts, hsplit, hjoin, -⟩
    have hrun : (do
        let this ← stringNew env [0x61] 1
        let values ← prototypeSplit env this (some ⟨[0x61], 0⟩) none
        let v ← prototypeJoin env Except.ok (values.map JoinElement.string) (some ⟨[0x61], 0⟩)
        Except.ok (values.length, v.length)) = Except.ok (2, 0) := by
      decide
    have hnew : Returns env (stringNew env [0x61] 1) fun v => v.prop = ⟨[0x61], 1⟩ :=
      stringNew_spec env (by decide) (Nat.le_refl _)
    obtain ⟨this, hthis, hprop⟩ := hnew.exists_ok henv
    rw [hthis] at hrun
    rcases hsplit env this hprop with ⟨values, hok, hvalues⟩ | ⟨herror, -⟩
    · obtain ⟨v, hv, hlength⟩ := (hjoin env StringValue Except.ok values hvalues).exists_ok henv
      have hok' : prototypeSplit env this (some ⟨[0x61], 0⟩) none = .ok values := hok
      have hv' : prototypeJoin env Except.ok (values.map JoinElement.string)
        (some ⟨[0x61], 0⟩) = .ok v := hv
      simp only [bind, Except.bind, hok', hv'] at hrun
      have hzero : v.prop.length = 0 := congrArg Prod.snd (Except.ok.inj hrun)
      rw [hlength] at hzero
      exact absurd hzero (by decide)
    · have herror' : prototypeSplit env this (some ⟨[0x61], 0⟩) none =
        .error (.throw .memoryError) := herror
      simp [bind, Except.bind, herror'] at hrun

end Njs.Str
