import Njs.Str.Occurrences
import Njs.Str.Replace

/-!
# The meaning of a template

The records of a template, put one after another, are the template with its substitutions
expanded. The array has room for fewer than `2 ^ 16` records: at this number it is empty again.
-/

namespace Njs.Str

open Utf8 Lib

/-- An occurrence, with what comes before and after it. -/
structure Around where
  matched : List UInt8
  before : List UInt8
  after : List UInt8

/-- A template with its substitutions expanded. -/
def expand (a : Around) : List UInt8 → List UInt8
  | [] => []
  | [c] => [c]
  | c :: d :: rest =>
    if c ≠ 0x24 then c :: expand a (d :: rest)
    else if d = 0x24 then 0x24 :: expand a rest
    else if d = 0x26 then a.matched ++ expand a rest
    else if d = 0x60 then a.before ++ expand a rest
    else if d = 0x27 then a.after ++ expand a rest
    else 0x24 :: expand a (d :: rest)

/-- The records that are still there, after all have been added to the array. -/
def kept (all : List Subst) : List Subst := all.drop (all.length / 2 ^ 16 * 2 ^ 16)

/-! ### One token -/

section Token

variable {a : Around}

end Token

/-! ### The array -/

section Kept

end Kept

/-! ### The scanner -/

section Scanner

variable {template : List UInt8} {a : Around}

end Scanner

/-! ### Texts -/

section Texts

variable {us : List CodePoint}

/-- A place before a character of a text, or at its end. -/
def Boundary (us : List CodePoint) (p : ℕ) : Prop :=
  ∃ i ≤ us.length, p = (Subject.text us).offset i

/-- A record of a text that stands for a text, if all around it are texts. -/
def TextRecord (us : List CodePoint) : Subst → Prop
  | .copy start size => ∃ vs, ((code.encodeAll us).drop start).take size = code.encodeAll vs
  | _ => True

/-- The records of a text up to a place. -/
structure TextRecords (us : List CodePoint) (opened : Bool) (p : ℕ) (all : List Subst) :
    Prop where
  closed : opened = false → Boundary us p ∧ ∀ record ∈ all, TextRecord us record
  opened : opened = true → ∃ init start size, all = init ++ [.copy start size] ∧
    start + size = p ∧ Boundary us start ∧ ∀ record ∈ init, TextRecord us record

theorem Boundary.take_drop {start stop : ℕ} (hstart : Boundary us start)
    (hstop : Boundary us stop) (hle : start ≤ stop) :
    ∃ vs, ((code.encodeAll us).drop start).take (stop - start) = code.encodeAll vs := by
  obtain ⟨i, hi, rfl⟩ := hstart
  obtain ⟨j, hj, rfl⟩ := hstop
  have hij := Subject.le_of_offset_le (.text us) (by rwa [Subject.chars, textChars_length]) hle
  refine ⟨(us.drop i).take (j - i), ?_⟩
  have htake := Segments.take_drop_offset (textChars us) hij
  rw [textChars_flatten] at htake
  refine htake.trans ?_
  rw [← textChars_flatten]
  simp [textChars, List.map_take, List.map_drop]

theorem TextRecords.all {opened : Bool} {p : ℕ} {all : List Subst}
    (h : TextRecords us opened p all) (hp : Boundary us p) :
    ∀ record ∈ all, TextRecord us record := by
  cases opened with
  | false => exact (h.closed rfl).2
  | true =>
    obtain ⟨init, start, size, rfl, hsize, hstart, hinit⟩ := h.opened rfl
    intro record hmem
    rcases List.mem_append.mp hmem with hmem | hmem
    · exact hinit record hmem
    · rw [List.mem_singleton.mp hmem]
      obtain ⟨vs, hvs⟩ := hstart.take_drop hp (by omega)
      exact ⟨vs, by rw [← hvs, ← hsize, Nat.add_sub_cancel_left]⟩

end Texts

end Njs.Str
