import Njs.Str.Index

/-!
# Strings as sequences of characters

The well-formed strings of the two kinds, as their characters: a byte of a byte string, or
the encoding of a code point of a text.
-/

namespace Njs.Str

open Utf8 Lib

/-- A well-formed string. -/
inductive Subject
  /-- A byte string. -/
  | bytes (bs : List UInt8)
  /-- A text. -/
  | text (us : List CodePoint)

namespace Subject

/-- The string as the functions of the source see it. -/
def prop : Subject → StringProp
  | bytes bs => ⟨bs, 0⟩
  | text us => ⟨code.encodeAll us, us.length⟩

/-- The characters of a string. -/
def chars : Subject → List (List UInt8)
  | bytes bs => bs.map fun b => [b]
  | text us => textChars us

/-- The byte offset of a character. -/
def offset (s : Subject) (k : ℕ) : ℕ := Segments.offset s.chars k

/-- The number of the character at a byte offset. -/
def position (s : Subject) (off : ℕ) : ℕ := Segments.count s.chars off

/-- The characters between two offsets. -/
def slice (s : Subject) (capture : ℕ × ℕ) : StringProp :=
  { start := (s.prop.start.drop capture.1).take (capture.2 - capture.1)
    length := match s with
      | bytes _ => 0
      | text _ => s.position capture.2 - s.position capture.1 }

theorem chars_ne_nil (s : Subject) : ∀ c ∈ s.chars, c ≠ [] := by
  cases s with
  | bytes bs =>
    intro c hc
    obtain ⟨b, -, rfl⟩ := List.mem_map.mp hc
    exact List.cons_ne_nil b []
  | text us => exact textChars_ne_nil us

theorem chars_flatten (s : Subject) : s.chars.flatten = s.prop.start := by
  cases s with
  | bytes bs => simp [chars, prop, ← List.flatMap_def]
  | text us => exact textChars_flatten us

theorem position_offset (s : Subject) {k : ℕ} (hk : k ≤ s.chars.length) :
    s.position (s.offset k) = k := Segments.count_offset s.chars_ne_nil hk

/-- In a byte string the number of a character is its offset. -/
theorem bytes_offset (bs : List UInt8) {k : ℕ} (hk : k ≤ (bytes bs).chars.length) :
    (bytes bs).offset k = k := by
  refine Segments.offset_eq_self (chars_ne_nil (.bytes bs)) ?_ hk
  rw [chars_flatten]
  simp [prop, chars]

end Subject

end Njs.Str
