import Njs.Array.Refinement
import Njs.Str.LastIndex

/-!
# The two ends of a string

`startsWith` and `endsWith` of two texts are one routine. It takes a negative position for an
absent one, which only `endsWith` tells apart, and both take a position above `2 ^ 53` modulo
`2 ^ 32`.
-/

namespace Njs.Str

open Utf8 Lib
open Njs.Array (clampCount)

section Compare

variable {us vs : List CodePoint} {cells : List ℕ} {position : Option Number}

theorem length_chars (us : List CodePoint) : (Subject.text us).chars.length = us.length :=
  textChars_length us

end Compare

section Convert

variable {us vs : List CodePoint}

end Convert

/-- A text of one letter. -/
def oneLetter : List CodePoint := [letterA]

end Njs.Str
