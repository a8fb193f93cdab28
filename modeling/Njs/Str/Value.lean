import Njs.Result
import Njs.Utf8

/-!
# String values

The two variants of `njs_value_t` for strings, and the functions that allocate,
shorten and compare them. A short string lives inside the value, a long one in an
allocated block whose tail may be reserved for the offset map.
-/

namespace Njs.Str

/-- `NJS_STRING_SHORT`: the largest size of an inline string. -/
def shortMax : ℕ := 14

/-- `NJS_STRING_MAX_LENGTH`. -/
def maxLength : ℕ := 0x7fffffff

/-- `NJS_STRING_MAP_STRIDE`. -/
def mapStride : ℕ := 32

/-- `njs_string_map_offset`: the size rounded up to the alignment of the map. -/
def mapOffset (size : ℕ) : ℕ := (size + 3) / 4 * 4

/-- `njs_string_map_size`: one 32-bit offset for every stride but the first. -/
def mapSize (length : ℕ) : ℕ := (length - 1) / mapStride * 4

instance neZero_fifteen : NeZero 15 :=
  ⟨by decide⟩

instance neZero_sixteen : NeZero 16 :=
  ⟨by decide⟩

/-- The `short_string` variant: two four-bit fields and fourteen bytes. The size
nibble 15 is `NJS_STRING_LONG`, so it is not a size. -/
structure ShortString where
  /-- The `size:4` field. -/
  size : Fin 15
  /-- The `length:4` field. -/
  length : Fin 16
  /-- The `start` array. -/
  start : List UInt8
  start_length : start.length = shortMax
  deriving DecidableEq

/-- The `long_string` variant with the `njs_string_t` that it points to. -/
structure LongString where
  /-- `long_string.size`. -/
  size : ℕ
  /-- `long_string.data->length`. -/
  length : ℕ
  /-- The bytes from `data->start` to the end of their allocation. -/
  storage : List UInt8
  size_le : size ≤ storage.length
  /-- No string is allocated with a larger size. -/
  size_le_max : size ≤ maxLength
  deriving DecidableEq

/-- A value of type `NJS_STRING`. -/
inductive StringValue
  | short (s : ShortString)
  | long (s : LongString)
  deriving DecidableEq

namespace StringValue

/-- The size in bytes. -/
def size : StringValue → ℕ
  | short s => s.size
  | long s => s.size

/-- The length field: the number of characters, or zero for a byte string. -/
def length : StringValue → ℕ
  | short s => s.length
  | long s => s.length

/-- `njs_string_get`: the bytes of the string. -/
def bytes : StringValue → List UInt8
  | short s => s.start.take s.size
  | long s => s.storage.take s.size

/-- The `truth` byte, which is made of the two nibbles of a short string and has the
size nibble 15 for a long one, is not zero. -/
def truth : StringValue → Bool
  | short s => s.size.val + 16 * s.length.val ≠ 0
  | long _ => true

/-- Whether the string is stored in the value itself. -/
def isInline : StringValue → Bool
  | short _ => true
  | long _ => false

/-- The number of bytes that follow `start` in the string's memory. -/
def capacity : StringValue → ℕ
  | short _ => shortMax
  | long s => s.storage.length

@[simp] theorem bytes_length (v : StringValue) : v.bytes.length = v.size := by
  cases v with
  | short s =>
    have := s.size.isLt
    simp only [bytes, size, List.length_take, s.start_length, shortMax]
    omega
  | long s => simp [bytes, size, s.size_le]

/-- Write bytes one after another from the start of a freshly allocated string.
A byte beyond the allocated size is an out-of-range access. -/
def fill (v : StringValue) (out : List UInt8) : Result StringValue :=
  match v with
  | short s =>
    if h : out.length ≤ s.size.val then
      .ok (short { s with
        start := out ++ s.start.drop out.length
        start_length := by
          have := s.size.isLt
          have := s.start_length
          simp only [shortMax] at this
          simp only [List.length_append, List.length_drop, shortMax]
          omega })
    else .error .fault
  | long s =>
    if h : out.length ≤ s.size then
      .ok (long { s with
        storage := out ++ s.storage.drop out.length
        size_le := by
          have := s.size_le
          simp only [List.length_append, List.length_drop]
          omega })
    else .error .fault

end StringValue

/-- The number of bytes that `njs_string_alloc` allocates for a long string: its
bytes and, for a text that is longer than a stride and not ASCII, the offset map. -/
def allocTotal (size length : ℕ) : ℕ :=
  if size ≠ length ∧ length > mapStride then mapOffset size + mapSize length else size

theorem le_mapOffset (size : ℕ) : size ≤ mapOffset size := by
  unfold mapOffset
  omega

theorem le_allocTotal (size length : ℕ) : size ≤ allocTotal size length := by
  unfold allocTotal
  split_ifs
  · exact Nat.le_add_right_of_le (le_mapOffset size)
  · exact Nat.le_refl _

/-- `sizeof(njs_string_t)`. -/
def sizeofString : ℕ := 16

/-- The contents of a fresh block: stale bytes, with the first map element cleared. -/
def freshStorage (env : Env) (size length : ℕ) : List UInt8 :=
  (List.range (allocTotal size length)).map fun i =>
    if size ≠ length ∧ length > mapStride ∧ mapOffset size ≤ i ∧ i < mapOffset size + 4 then 0
    else env.garbage i

/-- `njs_string_alloc`. Callers pass a length that is at most the size, so that
neither 32-bit field of a long string overflows below the size limit. -/
def stringAlloc (env : Env) (size length : ℕ) : Result StringValue :=
  if hmax : size > maxLength then .error (.throw (.rangeError "invalid string length"))
  else if h : size ≤ shortMax then
    .ok (.short {
      size := ⟨size, Nat.lt_succ_of_le h⟩
      length := Fin.ofNat 16 length
      start := (List.range shortMax).map env.garbage
      start_length := by simp })
  else if env.mpAlloc (sizeofString + allocTotal size length) then
    .ok (.long {
      size := size
      length := length
      storage := freshStorage env size length
      size_le := by simpa [freshStorage] using le_allocTotal size length
      size_le_max := Nat.le_of_not_lt hmax })
  else .error (.throw .memoryError)

/-- `njs_string_truncate`. The bytes of a long string that becomes inline are copied
into the value; the rest of the inline array keeps what the value held before. Only
a smaller size is ever asked for. -/
def truncate (env : Env) (v : StringValue) (size : ℕ) : Result StringValue :=
  if h : size ≤ shortMax then
    match v with
    | .short s => .ok (.short { s with size := ⟨size, Nat.lt_succ_of_le h⟩ })
    | .long s =>
      if hs : size ≤ s.storage.length then
        .ok (.short {
          size := ⟨size, Nat.lt_succ_of_le h⟩
          length := 0
          start := s.storage.take size ++ (List.range (shortMax - size)).map env.garbage
          start_length := by simp [hs, h] })
      else .error .fault
  else
    match v with
    -- A short string is only ever made shorter.
    | .short _ => .error .fault
    | .long s =>
      if hs : size ≤ s.size then
        .ok (.long { s with
          size := size
          size_le := Nat.le_trans hs s.size_le
          size_le_max := Nat.le_trans hs s.size_le_max })
      else .error .fault

/-- `njs_string_eq`. The lengths are compared first, unless one of the strings is a
byte string. -/
def stringEq : StringValue → StringValue → Bool
  | .short s, .short t =>
    s.size == t.size && !(s.length != 0 && t.length != 0 && s.length != t.length) &&
      s.start.take s.size == t.start.take s.size
  | .long s, .long t =>
    s.size == t.size && !(s.length != 0 && t.length != 0 && s.length != t.length) &&
      s.storage.take s.size == t.storage.take s.size
  -- The size nibbles differ.
  | .short _, .long _ => false
  | .long _, .short _ => false

/-! ## Allocating and filling -/

/-- What a freshly allocated string looks like to its allocator: room for `size`
bytes, inline exactly when they are few, and the offset map where there is one. -/
structure Allocated (size length : ℕ) (v : StringValue) : Prop where
  size_eq : v.size = size
  length_eq : v.length = if size ≤ shortMax then length % 16 else length
  inline_iff : v.isInline = true ↔ size ≤ shortMax
  capacity_eq : v.isInline = false → v.capacity = allocTotal size length

theorem StringValue.size_le_max (v : StringValue) : v.size ≤ maxLength := by
  cases v with
  | short s =>
    have := s.size.isLt
    simp only [size, maxLength]
    omega
  | long s => exact s.size_le_max

theorem stringAlloc_spec (env : Env) {size length : ℕ} (h : size ≤ maxLength) :
    Returns env (stringAlloc env size length) (Allocated size length) := by
  unfold stringAlloc
  rw [dif_neg (Nat.not_lt.mpr h)]
  by_cases hshort : size ≤ shortMax
  · rw [dif_pos hshort]
    exact .ok rfl ⟨rfl, by simp [StringValue.length, hshort], by simp
      [StringValue.isInline, hshort],
      by simp [StringValue.isInline]⟩
  · rw [dif_neg hshort]
    by_cases hmem : env.mpAlloc (sizeofString + allocTotal size length) = true
    · rw [if_pos hmem]
      exact .ok rfl ⟨rfl, by simp [StringValue.length, hshort],
        by simp [StringValue.isInline, hshort],
        fun _ => by simp [StringValue.capacity, freshStorage]⟩
    · rw [if_neg hmem]
      exact Or.inr ⟨rfl, _, by simpa using hmem⟩

/-- Filling keeps the shape of the string and changes its first bytes only. -/
theorem StringValue.fill_spec (v : StringValue) {out : List UInt8} (h : out.length ≤ v.size) :
    ∃ w, v.fill out = .ok w ∧ w.size = v.size ∧ w.length = v.length ∧
      w.isInline = v.isInline ∧ w.capacity = v.capacity ∧ w.bytes.take out.length = out := by
  cases v with
  | short s =>
    have hs : out.length ≤ s.size.val := h
    refine ⟨_, dif_pos hs, rfl, rfl, rfl, rfl, ?_⟩
    simp [StringValue.bytes, List.take_take, Nat.min_eq_left hs]
  | long s =>
    have hs : out.length ≤ s.size := h
    refine ⟨_, dif_pos hs, rfl, rfl, rfl, ?_, ?_⟩
    · have := s.size_le
      simp only [StringValue.capacity, List.length_append, List.length_drop]
      omega
    · simp [StringValue.bytes, List.take_take, Nat.min_eq_left hs]

/-- Allocating a string and writing all of its bytes. -/
theorem stringAlloc_fill_spec (env : Env) {length : ℕ} {out : List UInt8}
    (h : out.length ≤ maxLength) :
    Returns env (stringAlloc env out.length length >>= fun v => v.fill out)
      (fun w => Allocated out.length length w ∧ w.bytes = out) := by
  refine (stringAlloc_spec env h).bind fun v hv => ?_
  obtain ⟨w, hfill, hsize, hlen, hinl, hcap, hbytes⟩ :=
    StringValue.fill_spec v hv.size_eq.ge
  refine .ok hfill ⟨⟨hsize.trans hv.size_eq, hlen.trans hv.length_eq, hinl ▸ hv.inline_iff, ?_⟩, ?_⟩
  · rw [hinl, hcap]
    exact hv.capacity_eq
  · rwa [List.take_of_length_le (by rw [w.bytes_length, hsize, hv.size_eq])] at hbytes

end Njs.Str
