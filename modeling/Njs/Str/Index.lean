import Njs.Lib.Segments
import Njs.Str.Encodings

/-!
# Positions in strings

A string as `njs_string_prop` gives it to the string functions, the step to the next
character, and `njs_string_index`, which counts the characters before a byte offset with the
help of the offset map of a long string.
-/

namespace Njs.Str

open Utf8 Lib

/-- `njs_string_prop_t`. -/
structure StringProp where
  /-- The bytes from `start` on, as many as `size` says. -/
  start : List UInt8
  /-- The number of characters, or zero for a byte string. -/
  length : ℕ
  deriving DecidableEq

/-- The `size` field. -/
def StringProp.size (string : StringProp) : ℕ := string.start.length

/-- `njs_utf8_next`, from the rest of a string to the rest after a character. The byte at
`end`, which it may read, has no effect on where its callers stop. -/
def utf8Next : List UInt8 → List UInt8
  | [] => []
  | c :: p => if c &&& 0x80 ≠ 0 then p.dropWhile fun c => c &&& 0xC0 = 0x80 else p

/-- The loop of `njs_string_offset_map_init` over the rest `p` of a string. Every iteration
consumes a byte, so the size is fuel enough. -/
def offsetMapLoop (size : ℕ) : ℕ → List UInt8 → ℕ → List ℕ
  | 0, _, _ => []
  | fuel + 1, p, offset =>
    let cells := if offset = 0 then [size - p.length] else []
    let offset := if offset = 0 then mapStride else offset
    let next := utf8Next p
    cells ++ if next = [] then [] else offsetMapLoop size fuel next (offset - 1)

/-- The offset map of a string. It is filled in when it is used for the first time, always
with the same offsets. -/
def offsetMap (start : List UInt8) : List ℕ :=
  offsetMapLoop start.length start.length start mapStride

/-- The loop of `njs_string_index` over the map: the values of `last` and `index`. -/
def mapSearch (length offset : ℕ) : List ℕ → ℕ → ℕ → ℕ × ℕ
  | [], last, index => (last, index)
  | cell :: map, last, index =>
    if index + mapStride < length ∧ cell ≤ offset then
      mapSearch length offset map cell (index + mapStride)
    else (last, index)

/-- The loop of `njs_string_index` over the characters. -/
def indexLoop (size offset : ℕ) : ℕ → List UInt8 → ℕ → ℕ
  | 0, _, index => index
  | fuel + 1, p, index =>
    if size - p.length < offset then indexLoop size offset fuel (utf8Next p) (index + 1) else index

/-- `njs_string_index`. -/
def stringIndex (string : StringProp) (offset : ℕ) : ℕ :=
  if string.size = string.length then offset
  else
    let found := if mapStride ≤ string.length then
      mapSearch string.length offset (offsetMap string.start) 0 0 else (0, 0)
    indexLoop string.size offset string.size (string.start.drop found.1) found.2

/-! ### The next character -/

theorem not_high_iff (c : UInt8) : ¬ c &&& 0x80 ≠ 0 ↔ c < 0x80 := by
  revert c
  exact forall_byte (by decide +kernel)

theorem and_c0_iff (c : UInt8) : c &&& 0xC0 = 0x80 ↔ 0x80 ≤ c.toNat ∧ c.toNat < 0xC0 := by
  revert c
  exact forall_byte (by decide +kernel)

/-- The encoding of a character is a byte that does not continue one, and after a byte from
128 on the bytes that do. -/
theorem encode_eq_cons (u : CodePoint) :
    ∃ b cs, code.encode u = b :: cs ∧ ¬ IsContinuation b ∧ (∀ c ∈ cs, IsContinuation c) ∧
      (b < 0x80 → cs = []) := by
  have hcont (x : ℕ) : IsContinuation (x % 64 + 0x80).toUInt8 := by
    have hx : (x % 64 + 0x80).toUInt8.toNat = x % 64 + 0x80 :=
      UInt8.toNat_ofNat_of_lt' (by show x % 64 + 0x80 < 256; omega)
    rw [IsContinuation, hx]
    omega
  have hlead {x : ℕ} (hlow : 0xC0 ≤ x) (hhigh : x < 256) :
      ¬ IsContinuation x.toUInt8 ∧ ¬ x.toUInt8 < 0x80 := by
    have hx : x.toUInt8.toNat = x := UInt8.toNat_ofNat_of_lt' hhigh
    rw [IsContinuation, UInt8.lt_iff_toNat_lt, hx]
    change ¬ (0x80 ≤ x ∧ x < 0xC0) ∧ ¬ x < 0x80
    omega
  have hu := u.isLt
  have hencode := u.encode_eq
  have hu' : u.val < 0x110000 := hu
  by_cases h1 : u.val < 0x80
  · rw [encode_one h1] at hencode
    refine ⟨_, [], (Option.some.inj hencode).symm, ?_, by simp, fun _ => rfl⟩
    have hx : u.val.toUInt8.toNat = u.val := UInt8.toNat_ofNat_of_lt' (by show u.val < 256; omega)
    rw [IsContinuation, hx]
    omega
  by_cases h2 : u.val < 0x0800
  · rw [encode_two (by omega) h2] at hencode
    obtain ⟨hb, hhigh⟩ := hlead (x := u.val / 64 + 0xC0) (by omega) (by omega)
    exact ⟨_, _, (Option.some.inj hencode).symm, hb,
      List.forall_mem_singleton.mpr (hcont _),
      fun h => absurd h hhigh⟩
  by_cases h3 : u.val < 0x10000
  · rw [encode_three (by omega) h3] at hencode
    obtain ⟨hb, hhigh⟩ := hlead (x := u.val / 64 / 64 + 0xE0) (by omega) (by omega)
    exact ⟨_, _, (Option.some.inj hencode).symm, hb,
      List.forall_mem_cons.mpr ⟨hcont _, List.forall_mem_singleton.mpr (hcont _)⟩,
      fun h => absurd h hhigh⟩
  · rw [encode_four (by omega) hu] at hencode
    obtain ⟨hb, hhigh⟩ := hlead (x := u.val / 64 / 64 / 64 + 0xF0) (by omega) (by omega)
    exact ⟨_, _, (Option.some.inj hencode).symm, hb,
      List.forall_mem_cons.mpr ⟨hcont _,
        List.forall_mem_cons.mpr ⟨hcont _, List.forall_mem_singleton.mpr (hcont _)⟩⟩,
      fun h => absurd h hhigh⟩

theorem dropWhile_continuation {cs rest : List UInt8} (hcs : ∀ c ∈ cs, IsContinuation c)
    (hrest : ∀ b ∈ rest.head?, ¬ IsContinuation b) :
    (cs ++ rest).dropWhile (fun c => c &&& 0xC0 = 0x80) = rest := by
  rw [List.dropWhile_append_of_pos fun c hc => by
    simpa [IsContinuation] using (and_c0_iff c).mpr (hcs c hc)]
  cases rest with
  | nil => rfl
  | cons b rest =>
    have hb : ¬ b &&& 0xC0 = 0x80 := fun h => hrest b rfl ((and_c0_iff b).mp h)
    simp [hb]

theorem head?_encodeAll (us : List CodePoint) :
    ∀ b ∈ (code.encodeAll us).head?, ¬ IsContinuation b := by
  intro b hb
  cases us with
  | nil => simp at hb
  | cons u us =>
    obtain ⟨b', cs, hu, hb', -, -⟩ := encode_eq_cons u
    rw [code.encodeAll_cons, hu] at hb
    obtain rfl := Option.some.inj hb
    exact hb'

/-- `njs_utf8_next` goes over one character of a text. -/
theorem utf8Next_encodeAll (u : CodePoint) (us : List CodePoint) :
    utf8Next (code.encodeAll (u :: us)) = code.encodeAll us := by
  obtain ⟨b, cs, hu, -, hcs, hone⟩ := encode_eq_cons u
  rw [code.encodeAll_cons, hu, List.cons_append, utf8Next]
  split_ifs with hhigh
  · exact dropWhile_continuation hcs (head?_encodeAll us)
  · rw [hone ((not_high_iff b).mp hhigh), List.nil_append]

/-! ### The number of characters before an offset -/

/-- The characters of a text. -/
def textChars (us : List CodePoint) : List (List UInt8) := us.map code.encode

theorem textChars_ne_nil (us : List CodePoint) : ∀ c ∈ textChars us, c ≠ [] := by
  intro c hc
  obtain ⟨u, -, rfl⟩ := List.mem_map.mp hc
  exact code.encode_ne_nil u

theorem textChars_flatten (us : List CodePoint) :
    (textChars us).flatten = code.encodeAll us := by
  rw [textChars, PrefixCode.encodeAll, List.flatMap_def]

theorem textChars_length (us : List CodePoint) : (textChars us).length = us.length := by
  simp [textChars]

/-- What is left of a text after a number of characters. -/
theorem size_sub_rest (us : List CodePoint) (k : ℕ) :
    (code.encodeAll us).length - (code.encodeAll (us.drop k)).length =
      Segments.offset (textChars us) k := by
  have hdrop := Segments.drop_offset (textChars us) k
  rw [show (textChars us).drop k = textChars (us.drop k) by simp [textChars],
    textChars_flatten, textChars_flatten] at hdrop
  have hle := Segments.offset_le (textChars us) k
  rw [textChars_flatten] at hle
  rw [← hdrop, List.length_drop]
  omega

theorem drop_offset_text (us : List CodePoint) (k : ℕ) :
    (code.encodeAll us).drop (Segments.offset (textChars us) k) = code.encodeAll (us.drop k) := by
  rw [← textChars_flatten, Segments.drop_offset, ← textChars_flatten]
  simp [textChars]

theorem utf8Next_drop {us : List CodePoint} {k : ℕ} (hk : k < us.length) :
    utf8Next (code.encodeAll (us.drop k)) = code.encodeAll (us.drop (k + 1)) := by
  rw [List.drop_eq_getElem_cons hk, utf8Next_encodeAll]

theorem lt_length_of_encodeAll_ne_nil {us : List CodePoint} {k : ℕ}
    (h : code.encodeAll (us.drop k) ≠ []) : k < us.length := by
  by_contra hle
  rw [List.drop_eq_nil_of_le (Nat.le_of_not_lt hle)] at h
  exact h rfl

/-- The loop over the characters counts those before the offset. -/
theorem indexLoop_eq (us : List CodePoint) {k : ℕ} (hk : k ≤ us.length) (fuel i : ℕ)
    (hi : i ≤ k) (hfuel : k - i ≤ fuel) :
    indexLoop (code.encodeAll us).length (Segments.offset (textChars us) k) fuel
      (code.encodeAll (us.drop i)) i = k := by
  have hlen := textChars_length us
  induction fuel generalizing i with
  | zero =>
    obtain rfl : i = k := by omega
    rfl
  | succ fuel ih =>
    rw [indexLoop, size_sub_rest]
    rcases Nat.lt_or_eq_of_le hi with hlt | rfl
    · rw [if_pos (Segments.offset_lt_offset (textChars_ne_nil us) hlt (by omega)),
        utf8Next_drop (by omega)]
      exact ih (i + 1) hlt (by omega)
    · rw [if_neg (Nat.lt_irrefl _)]

/-- No byte before an offset is skipped as the continuation of the byte before it. -/
def Separate (bytes : List UInt8) (offset : ℕ) : Prop :=
  ∀ i b c, i + 1 < offset → bytes[i]? = some b → bytes[i + 1]? = some c →
    ¬ (0x80 ≤ b ∧ IsContinuation c)

theorem utf8Next_length_le (b : UInt8) (p : List UInt8) :
    (utf8Next (b :: p)).length ≤ p.length := by
  rw [utf8Next]
  split_ifs
  · exact (List.dropWhile_suffix _).length_le
  · exact Nat.le_refl _

theorem indexLoop_stop {size offset : ℕ} (fuel : ℕ) {p : List UInt8} (index : ℕ)
    (h : offset ≤ size - p.length) : indexLoop size offset fuel p index = index := by
  cases fuel with
  | zero => rfl
  | succ fuel => rw [indexLoop, if_neg (Nat.not_lt.mpr h)]

theorem utf8Next_bytes {bytes : List UInt8} {offset : ℕ} (hoffset : offset ≤ bytes.length)
    (hsep : Separate bytes offset) {i : ℕ} (hi : i + 1 < offset) :
    utf8Next (bytes.drop i) = bytes.drop (i + 1) := by
  have hb : i < bytes.length := by omega
  have hc : i + 1 < bytes.length := by omega
  rw [List.drop_eq_getElem_cons hb, utf8Next]
  split_ifs with hhigh
  · have hnext : ¬ IsContinuation bytes[i + 1] := by
      refine fun hcont => hsep i _ _ hi (List.getElem?_eq_getElem hb)
        (List.getElem?_eq_getElem hc) ⟨?_, hcont⟩
      exact UInt8.not_lt.mp fun hlow => (not_high_iff _).mpr hlow hhigh
    refine @dropWhile_continuation [] _ (by simp) fun b hb => ?_
    rw [List.head?_drop, List.getElem?_eq_getElem hc] at hb
    rwa [← Option.some.inj hb]
  · rfl

theorem indexLoop_bytes {bytes : List UInt8} {offset : ℕ} (hoffset : offset ≤ bytes.length)
    (hsep : Separate bytes offset) (fuel i : ℕ) (hi : i ≤ offset) (hfuel : offset - i ≤ fuel) :
    indexLoop bytes.length offset fuel (bytes.drop i) i = offset := by
  induction fuel generalizing i with
  | zero =>
    obtain rfl : i = offset := by omega
    rfl
  | succ fuel ih =>
    rw [indexLoop, List.length_drop]
    rcases Nat.lt_or_eq_of_le hi with hlt | rfl
    · rw [if_pos (by omega)]
      by_cases hlast : i + 1 = offset
      · -- wherever the last step leads to, it is the last one
        have hb : i < bytes.length := by omega
        have hle := utf8Next_length_le bytes[i] (bytes.drop (i + 1))
        rw [← List.drop_eq_getElem_cons hb, List.length_drop] at hle
        rw [indexLoop_stop fuel (i + 1) (by omega), hlast]
      · rw [utf8Next_bytes hoffset hsep (by omega)]
        exact ih (i + 1) hlt (by omega)
    · rw [if_neg (by omega)]

/-- `njs_string_index` in a byte string, where no byte is taken for a part of a character. -/
theorem stringIndex_bytes {bytes : List UInt8} {offset : ℕ} (hoffset : offset ≤ bytes.length)
    (hsep : Separate bytes offset) : stringIndex ⟨bytes, 0⟩ offset = offset := by
  have hmap : ¬ mapStride ≤ 0 := by decide
  unfold stringIndex
  simp only [StringProp.size, if_neg hmap, List.drop_zero]
  split_ifs with hempty
  · rfl
  · exact indexLoop_bytes hoffset hsep _ 0 (Nat.zero_le _) (by omega)

end Njs.Str
