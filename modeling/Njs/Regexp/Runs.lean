import Njs.Regexp.Engine

/-!
# Runs of `exec`

Over any sequence of uses that meet the condition, `exec` and `lastIndex` give what they
should.
-/

namespace Njs.Regexp

open Str Utf8 Lib

/-! ### Captures -/

/-- `njs_string_calc_length` counts the characters of a part of a text. -/
theorem calcLength_text (us vs : List CodePoint) (hsub : ∀ v ∈ vs, v ∈ us) :
    calcLength (kindOf (Subject.text us).prop) (code.encodeAll vs) = vs.length := by
  change calcLength (if us.length ≠ 0 then
    if us.length ≠ (code.encodeAll us).length then Kind.utf8 else .ascii else .byte) _ = _
  by_cases hne : us.length ≠ 0
  · rw [if_pos hne]
    by_cases hsize : us.length ≠ (code.encodeAll us).length
    · -- not all characters have one byte
      have hlength : Utf8.length (code.encodeAll vs) = some (vs.length : ℤ) :=
        length_eq_iff.mpr ⟨vs, rfl, rfl⟩
      rw [if_pos hsize]
      simp [calcLength, hlength]
    · rw [if_neg hsize]
      have hascii := (encodeAll_length us).2.mp (not_not.mp hsize)
      refine ((encodeAll_length vs).2.mpr fun b hb => ?_).symm
      obtain ⟨v, hv, hb⟩ := List.mem_flatMap.mp hb
      exact hascii b (List.mem_flatMap.mpr ⟨v, hsub v hv, hb⟩)
  · rw [if_neg hne]
    have hus : us = [] := List.length_eq_zero_iff.mp (not_not.mp hne)
    have hvs : vs = [] := List.eq_nil_iff_forall_not_mem.mpr fun v hv => by
      simpa [hus] using hsub v hv
    simp [calcLength, hvs]

/-- The string of a capture is what lies between its offsets, with the right length. -/
theorem captureString_eq (s : Subject) {k : ℕ} {capture : ℕ × ℕ}
    (h : Range s (k + capture.1, k + capture.2)) :
    captureString (kindOf s.prop) (s.prop.start.drop k) capture =
      s.slice (k + capture.1, k + capture.2) := by
  have hsub : k + capture.2 - (k + capture.1) = capture.2 - capture.1 := by omega
  unfold captureString Subject.slice
  simp only [List.drop_drop, hsub, StringProp.mk.injEq, true_and]
  cases s with
  | bytes bs => rfl
  | text us =>
    obtain ⟨hle, ⟨i, hi, hstart⟩, ⟨j, hj, hstop⟩⟩ := h
    simp only [Subject.chars] at hstart hstop hle hi hj
    have hne := textChars_ne_nil us
    have hij : i ≤ j := by
      by_contra hlt
      have hoffset := Segments.offset_lt_offset hne (Nat.lt_of_not_le hlt) hi
      omega
    have hpart : ((code.encodeAll us).drop (k + capture.1)).take (capture.2 - capture.1) =
        code.encodeAll ((us.drop i).take (j - i)) := by
      have hslice := Segments.take_drop_offset (textChars us) hij
      rw [hstart, hstop, hsub, textChars_flatten] at hslice
      rw [hslice, ← textChars_flatten]
      simp [textChars]
    simp only [Subject.position, Subject.chars, ← hstart, ← hstop,
      Segments.count_offset hne hi, Segments.count_offset hne hj]
    rw [hstart]
    simp only [Subject.prop, hpart]
    rw [textChars_length] at hj
    have hlength := calcLength_text us ((us.drop i).take (j - i)) fun v hv =>
      List.mem_of_mem_drop (List.mem_of_mem_take hv)
    simp only [Subject.prop, List.length_take, List.length_drop] at hlength
    rw [hlength]
    omega

/-- `last_index` is the offset of a character of the last subject, which is its first one if
the expression is not global, and `last` is its number. -/
structure Holds (r : RegExp) (last : ℕ) : Prop where
  string : (r.string = none ∧ r.lastIndex = 0 ∧ last = 0) ∨
    ∃ s : Subject, r.string = some s.prop ∧ last ≤ s.chars.length ∧ r.lastIndex = s.offset last
  nonglobal : r.pattern.global = false → r.lastIndex = 0 ∧ last = 0

theorem Holds.regexpAlloc (pattern : Pattern) : Holds (regexpAlloc pattern) 0 where
  string := .inl ⟨rfl, rfl, rfl⟩
  nonglobal := fun _ => ⟨rfl, rfl⟩

theorem Holds.start (pattern : Pattern) (s : Subject) : Holds ⟨pattern, some s.prop, 0⟩ 0 where
  string := .inr ⟨s, rfl, Nat.zero_le _, (Segments.offset_zero _).symm⟩
  nonglobal := fun _ => ⟨rfl, rfl⟩

/-- The character of a text at the start offset. -/
def anyChar : Regex where
  search subject start :=
    if start < subject.length then
      .matched ⟨start, subject.length - (utf8Next (subject.drop start)).length, []⟩
    else .noMatch

end Njs.Regexp
