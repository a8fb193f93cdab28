import Njs.Strtod
import Njs.Utf8

/-!
# JSON texts

The grammar of RFC 8259, with the value that a text denotes. How numbers are written and how
the escapes of a string are decoded is a parameter: a `Reading`. The grammar relates a text,
the value at its beginning and what follows the value.
-/

namespace Njs.Json

/-- A value that has no functions. The members of an object are in the order in which its
hash is visited. -/
inductive Tree
  | null
  | boolean (b : Bool)
  | number (n : Number)
  | string (s : List UInt8)
  | array (elements : List Tree)
  | object (members : List (List UInt8 × Tree))

/-! ## Punctuation -/

abbrev beginArray : UInt8 := 91
abbrev beginObject : UInt8 := 123
abbrev endArray : UInt8 := 93
abbrev endObject : UInt8 := 125
abbrev nameSeparator : UInt8 := 58
abbrev valueSeparator : UInt8 := 44
abbrev quotationMark : UInt8 := 34
abbrev escapeMark : UInt8 := 92
abbrev minusSign : UInt8 := 45

/-- A space, a tab, a carriage return or a line feed. -/
def isSpace (c : UInt8) : Bool := c = 32 ∨ c = 9 ∨ c = 13 ∨ c = 10

/-- There are only spaces between two places in a text. -/
def Spaces (p q : List UInt8) : Prop := ∃ w, (∀ c ∈ w, isSpace c = true) ∧ p = w ++ q

/-! ## Strings -/

/-- A part of a string: a byte, or a 16-bit unit that is written as an escape. -/
inductive Item
  | byte (c : UInt8)
  | unit (u : ℕ)
  deriving DecidableEq

/-- The character that an escape of two bytes stands for. -/
def escaped (c : UInt8) : Option UInt8 :=
  if c = quotationMark ∨ c = escapeMark ∨ c = 47 then some c
  else if c = 110 then some 10
  else if c = 114 then some 13
  else if c = 116 then some 9
  else if c = 98 then some 8
  else if c = 102 then some 12
  else none

/-- The value of a hexadecimal digit. -/
def hexDigit (c : UInt8) : Option ℕ :=
  if 48 ≤ c ∧ c ≤ 57 then some (c.toNat - 48)
  else if 65 ≤ c ∧ c ≤ 70 then some (c.toNat - 55)
  else if 97 ≤ c ∧ c ≤ 102 then some (c.toNat - 87)
  else none

/-- The unit that four hexadecimal digits stand for. -/
def hexUnit (a b c d : UInt8) : Option ℕ := do
  let a ← hexDigit a
  let b ← hexDigit b
  let c ← hexDigit c
  let d ← hexDigit d
  return ((a * 16 + b) * 16 + c) * 16 + d

/-- The part of a string at the beginning of a text, and what follows it. -/
def item : List UInt8 → Option (Item × List UInt8)
  | [] => none
  | c :: p =>
    if c = escapeMark then
      match p with
      | 117 :: a :: b :: c :: d :: p => (hexUnit a b c d).map fun u => (.unit u, p)
      | e :: p => (escaped e).map fun c => (.byte c, p)
      | [] => none
    else if c = quotationMark ∨ c < 32 then none
    else some (.byte c, p)

/-- A string, from behind its first quotation mark to behind its last. -/
inductive StringText : List UInt8 → List Item → List UInt8 → Prop
  | nil (q : List UInt8) : StringText (quotationMark :: q) [] q
  | cons {p p' q : List UInt8} {i : Item} {items : List Item} (h : item p = some (i, p'))
    (hrest : StringText p' items q) : StringText p (i :: items) q

/-- The bytes of U+FFFD. -/
def replacement : List UInt8 := [239, 191, 189]

/-- A unit of the first, or of the second, half of a pair. -/
def isHigh (u : ℕ) : Bool := 0xD800 ≤ u ∧ u ≤ 0xDBFF

def isLow (u : ℕ) : Bool := 0xDC00 ≤ u ∧ u ≤ 0xDFFF

/-- The encoding of a code point. -/
def utf8 (u : ℕ) : List UInt8 := (Utf8.encode u).getD []

/-- The encoding of a unit that is not part of a pair. -/
def encodeUnit (u : ℕ) : List UInt8 := if isHigh u || isLow u then replacement else utf8 u

/-- The code point of a pair. -/
def pairCode (high low : ℕ) : ℕ := 0x10000 + (high - 0xD800) * 2 ^ 10 + (low - 0xDC00)

/-- The bytes of a string whose units are read as UTF-16. A unit without its other half is
replaced. -/
def decodeUtf16 : List Item → List UInt8
  | [] => []
  | .byte c :: items => c :: decodeUtf16 items
  | .unit u :: .unit l :: items =>
    if isHigh u && isLow l then utf8 (pairCode u l) ++ decodeUtf16 items
    else encodeUnit u ++ decodeUtf16 (.unit l :: items)
  | .unit u :: items => encodeUnit u ++ decodeUtf16 items

/-! ## Numbers -/

/-- The parts of a number without its sign. -/
structure Numeral where
  whole : List UInt8
  fraction : Option (List UInt8)
  /-- The exponent, behind an `e` or `E`, with its sign. -/
  exponent : Option (UInt8 × Option UInt8 × List UInt8)

/-- The text of a fraction. -/
def fractionText (fraction : Option (List UInt8)) : List UInt8 :=
  match fraction with
  | some digits => 46 :: digits
  | none => []

/-- The text of an exponent. -/
def exponentText (exponent : Option (UInt8 × Option UInt8 × List UInt8)) : List UInt8 :=
  match exponent with
  | some (e, sign, digits) => e :: (sign.toList ++ digits)
  | none => []

/-- The text of a number without its sign. -/
def Numeral.text (n : Numeral) : List UInt8 :=
  n.whole ++ fractionText n.fraction ++ exponentText n.exponent

/-- The exponent has digits, behind a letter and perhaps a sign. -/
def isExponent (exponent : UInt8 × Option UInt8 × List UInt8) : Prop :=
  (exponent.1 = 101 ∨ exponent.1 = 69) ∧
    (∀ sign ∈ exponent.2.1, sign = 45 ∨ sign = 43) ∧
    exponent.2.2 ≠ [] ∧ ∀ c ∈ exponent.2.2, isDigit c = true

/-- A number that has a digit before its exponent. -/
structure Numeral.Scanned (n : Numeral) : Prop where
  whole : ∀ c ∈ n.whole, isDigit c = true
  fraction : ∀ digits ∈ n.fraction, ∀ c ∈ digits, isDigit c = true
  exponent : ∀ e ∈ n.exponent, isExponent e
  digits : n.whole ++ n.fraction.getD [] ≠ []

/-- A number of RFC 8259: there are digits before the point and behind it, and no zero
before another digit. -/
structure Numeral.Rfc (n : Numeral) : Prop extends n.Scanned where
  integer : n.whole ≠ [] ∧ (n.whole = [48] ∨ n.whole.head? ≠ some 48)
  point : ∀ digits ∈ n.fraction, digits ≠ []

/-- The number with the other sign, if there is a sign. -/
def signed (minus : Bool) (n : Number) : Number :=
  if minus then
    match n with
    | .nan => .nan
    | .posInfinity => .negInfinity
    | .negInfinity => .posInfinity
    | .finite q => .finite (-q)
  else n

/-- The text of a sign. -/
def signText (minus : Bool) : List UInt8 := if minus then [minusSign] else []

/-! ## Values -/

/-- How the literals of a text are read. -/
structure Reading where
  numeral : Numeral → Prop
  decode : List Item → List UInt8

/-- What a part of the grammar says of a text, a value at its beginning, and what follows. -/
abbrev Grammar (β : Type) : Type := List UInt8 → β → List UInt8 → Prop

/-- The values that are no arrays or objects. -/
inductive Scalar (strtod : Strtod) (reading : Reading) : Grammar Tree
  | null (q : List UInt8) : Scalar strtod reading ([110, 117, 108, 108] ++ q) .null q
  | true (q : List UInt8) : Scalar strtod reading ([116, 114, 117, 101] ++ q) (.boolean true) q
  | false (q : List UInt8) :
    Scalar strtod reading ([102, 97, 108, 115, 101] ++ q) (.boolean false) q
  | number (minus : Bool) (n : Numeral) (q : List UInt8) (hn : reading.numeral n) :
    Scalar strtod reading (signText minus ++ n.text ++ q)
      (.number (signed minus (strtod.parse n.text).1)) q
  | string {p q : List UInt8} {items : List Item} (h : StringText p items q) :
    Scalar strtod reading (quotationMark :: p) (.string (reading.decode items)) q

/-- The elements of an array, each behind a bracket or a comma. -/
inductive Elements (value : Grammar Tree) : Grammar (List Tree)
  | last {p p₁ p₂ q : List UInt8} {v : Tree} (hbefore : Spaces p p₁) (hvalue : value p₁ v p₂)
    (hafter : Spaces p₂ (endArray :: q)) : Elements value p [v] q
  | cons {p p₁ p₂ p₃ q : List UInt8} {v : Tree} {vs : List Tree} (hbefore : Spaces p p₁)
    (hvalue : value p₁ v p₂) (hafter : Spaces p₂ (valueSeparator :: p₃))
    (hrest : Elements value p₃ vs q) : Elements value p (v :: vs) q

/-- An array. -/
inductive ArrayText (value : Grammar Tree) : Grammar (List Tree)
  | empty {p q : List UInt8} (h : Spaces p (endArray :: q)) :
    ArrayText value (beginArray :: p) [] q
  | elements {p q : List UInt8} {vs : List Tree} (h : Elements value p vs q) :
    ArrayText value (beginArray :: p) vs q

/-- A member of an object: a name, a colon and a value. -/
inductive Member (reading : Reading) (value : Grammar Tree) : Grammar (List UInt8 × Tree)
  | intro {p p₁ p₂ p₃ q : List UInt8} {items : List Item} {v : Tree}
    (hname : StringText p items p₁) (hcolon : Spaces p₁ (nameSeparator :: p₂))
    (hbefore : Spaces p₂ p₃) (hvalue : value p₃ v q) :
    Member reading value (quotationMark :: p) (reading.decode items, v) q

/-- The members of an object, each behind a bracket or a comma. -/
inductive Members (reading : Reading) (value : Grammar Tree) : Grammar (List (List UInt8 × Tree))
  | last {p p₁ p₂ q : List UInt8} {m : List UInt8 × Tree} (hbefore : Spaces p p₁)
    (hmember : Member reading value p₁ m p₂) (hafter : Spaces p₂ (endObject :: q)) :
    Members reading value p [m] q
  | cons {p p₁ p₂ p₃ q : List UInt8} {m : List UInt8 × Tree} {ms : List (List UInt8 × Tree)}
    (hbefore : Spaces p p₁) (hmember : Member reading value p₁ m p₂)
    (hafter : Spaces p₂ (valueSeparator :: p₃)) (hrest : Members reading value p₃ ms q) :
    Members reading value p (m :: ms) q

/-- An object. -/
inductive ObjectText (reading : Reading) (value : Grammar Tree) :
    Grammar (List (List UInt8 × Tree))
  | empty {p q : List UInt8} (h : Spaces p (endObject :: q)) :
    ObjectText reading value (beginObject :: p) [] q
  | members {p q : List UInt8} {ms : List (List UInt8 × Tree)} (h : Members reading value p ms q) :
    ObjectText reading value (beginObject :: p) ms q

theorem lawfulBEq_name : LawfulBEq (List UInt8) :=
  inferInstance

attribute [local instance] lawfulBEq_name

/-- The members that no later member with the same name replaces. -/
def lastWins : List (List UInt8 × Tree) → List (List UInt8 × Tree)
  | [] => []
  | m :: ms => if m.1 ∈ ms.map Prod.fst then lastWins ms else m :: lastWins ms

/-- A value whose arrays and objects are nested at most so deep. -/
def ValueText (strtod : Strtod) (reading : Reading) : ℕ → Grammar Tree
  | 0 => Scalar strtod reading
  | depth + 1 => fun p v q =>
    Scalar strtod reading p v q ∨
      (∃ vs, v = .array vs ∧ ArrayText (ValueText strtod reading depth) p vs q) ∨
      ∃ ms, v = .object (lastWins ms) ∧
        ObjectText reading (ValueText strtod reading depth) p ms q

/-- `NJS_JSON_MAX_DEPTH`. -/
abbrev maxDepth : ℕ := 32

/-- A text denotes a value that is nested at most `NJS_JSON_MAX_DEPTH - 1` deep. -/
def Denotes (strtod : Strtod) (reading : Reading) (t : List UInt8) (v : Tree) : Prop :=
  ∃ p q, Spaces t p ∧ ValueText strtod reading (maxDepth - 1) p v q ∧ Spaces q []

/-- The reading of RFC 8259. -/
def rfc : Reading where
  numeral := Numeral.Rfc
  decode := decodeUtf16

end Njs.Json
