import Njs.Str.Encodings
import Njs.Json.Text
import Njs.Decimal.Printing

/-!
# Parsers of integer literals

The parsers of octal, binary and hexadecimal literals and of `parseInt` accumulate the digits in
64 bits. The sums wrap, and the parser of `parseInt` reads its sum as a signed number, of which
-1 stands for no digits.
-/

namespace Njs.Integers

/-- The loop of the parsers: `num = num * base + c` in 64 bits, up to the first character that
is no digit. -/
def parseLoop (digit : UInt8 → Option ℕ) (base num : ℕ) : List UInt8 → ℕ × List UInt8
  | [] => (num, [])
  | c :: p =>
    match digit c with
    | some d => parseLoop digit base ((num * base + d) % 2 ^ 64) p
    | none => (num, c :: p)

/-- The digits of `njs_number_oct_parse`. Values less than '0' become at least 208. -/
def octDigit (c : UInt8) : Option ℕ := if c - 48 > 7 then none else some (c - 48).toNat

/-- The digits of `njs_number_bin_parse`. -/
def binDigit (c : UInt8) : Option ℕ := if c - 48 > 1 then none else some (c - 48).toNat

/-- `njs_number_oct_parse`. -/
def octParse (text : List UInt8) : ℕ × List UInt8 := parseLoop octDigit 8 0 text

/-- `njs_number_bin_parse`. -/
def binParse (text : List UInt8) : ℕ × List UInt8 := parseLoop binDigit 2 0 text

/-- `njs_number_hex_parse`. -/
def hexParse (text : List UInt8) : ℕ × List UInt8 := parseLoop Str.charToHex 16 0 text

/-- The table of `njs_number_radix_parse`, whose entries -1 become 255. -/
def letterDigit (c : UInt8) : ℕ :=
  if 48 ≤ c ∧ c ≤ 57 then c.toNat - 48
  else if 65 ≤ c ∧ c ≤ 90 then c.toNat - 65 + 10
  else if 97 ≤ c ∧ c ≤ 122 then c.toNat - 97 + 10
  else 255

/-- The digits of a radix. -/
def radixDigit (radix : ℕ) (c : UInt8) : Option ℕ :=
  if letterDigit c ≥ radix then none else some (letterDigit c)

/-- The conversion of C from `uint64_t` to `int64_t`. -/
def toInt64 (n : ℕ) : ℤ := if n < 2 ^ 63 then n else n - 2 ^ 64

/-- The loop of `njs_number_radix_parse`. -/
def radixLoop (radix : ℕ) (n : ℕ) (num : ℤ) : List UInt8 → ℤ × List UInt8
  | [] => (num, [])
  | c :: p =>
    match radixDigit radix c with
    | some d => radixLoop radix ((n * radix + d) % 2 ^ 64) (toInt64 ((n * radix + d) % 2 ^ 64)) p
    | none => (num, c :: p)

/-- `njs_number_radix_parse`. -/
def radixParse (radix : ℕ) (text : List UInt8) : ℤ × List UInt8 := radixLoop radix 0 (-1) text

/-- What `parseInt` does before it parses: the sign, the radix and the text of the digits, or
`none` for a NaN. The second argument is absent or the radix converted to 32 bits. -/
def parseIntText (string : List UInt8) (radix : Option ℤ) : Option (Bool × ℕ × List UInt8) :=
  let p := string.dropWhile (· = 32)
  if p = [] then none
  else
    let minus := p.head? = some 45
    let p := if p.head? = some 45 ∨ p.head? = some 43 then p.tail else p
    let radix := radix.getD 0
    if radix ≠ 0 ∧ (radix < 2 ∨ 36 < radix) then none
    else
      let testPrefix := 1 < p.length ∧ (radix = 0 ∨ radix = 16)
      let radix := if radix = 0 then 10 else radix.toNat
      if testPrefix ∧ p.head? = some 48 ∧ (p.tail.head? = some 120 ∨ p.tail.head? = some 88) then
        some (minus, 16, p.drop 2)
      else some (minus, radix, p)

/-- The order of doubles. A NaN is not ordered. -/
def atMost : Number → Number → Prop
  | .negInfinity, y => y ≠ .nan
  | .finite a, .finite b => a ≤ b
  | .finite _, .posInfinity => True
  | .posInfinity, y => y = .posInfinity
  | _, _ => False

/-- The rounding to doubles: it keeps the order, is never a NaN and leaves the multiples of
small powers of two as they are that have at most 53 bits. -/
structure Rounding extends Decimal.Rounding where
  ordered : ∀ a b, a ≤ b → atMost (round a) (round b)
  dyadic : ∀ m e : ℕ, m < 2 ^ 53 → e ≤ 64 → round (m * 2 ^ e : ℕ) = .finite (m * 2 ^ e : ℕ)

/-- `njs_number_parse_int` of a string. -/
def parseInt (r : Rounding) (string : List UInt8) (radix : Option ℤ) : Number :=
  match parseIntText string radix with
  | some (minus, radix, p) =>
    let n := (radixParse radix p).1
    if n ≥ 0 then Json.signed minus (r.round n) else .nan
  | none => .nan

/-- The parsers. -/
inductive Parser
  | radix (radix : ℕ)
  | hex
  | oct
  | bin
  deriving DecidableEq

/-- The radix of the digits. -/
def Parser.base : Parser → ℕ
  | .radix b => b
  | .hex => 16
  | .oct => 8
  | .bin => 2

/-- The digits of a literal. -/
def Parser.digit (parser : Parser) (c : UInt8) : Option ℕ := radixDigit parser.base c

/-- The result of a parser with the text that is left. -/
def Parser.parse : Parser → List UInt8 → ℤ × List UInt8
  | .radix b, text => radixParse b text
  | .hex, text => ((hexParse text).1, (hexParse text).2)
  | .oct, text => ((octParse text).1, (octParse text).2)
  | .bin, text => ((binParse text).1, (binParse text).2)

/-- The number that digits stand for, behind some others. -/
def positional (digit : UInt8 → Option ℕ) (base : ℕ) (start : ℕ) (digits : List UInt8) : ℕ :=
  digits.foldl (fun n c => n * base + (digit c).getD 0) start

/-- The digits that a text begins with. -/
def Parser.digits (parser : Parser) (text : List UInt8) : List UInt8 :=
  text.takeWhile fun c => (parser.digit c).isSome

/-- The text behind its first digits. -/
def Parser.rest (parser : Parser) (text : List UInt8) : List UInt8 :=
  text.dropWhile fun c => (parser.digit c).isSome

/-- The exact value of the digits that a text begins with. -/
def Parser.value (parser : Parser) (text : List UInt8) : ℕ :=
  positional parser.digit parser.base 0 (parser.digits text)

/-- A text is parsed as it should be: the digits are consumed and no more, -1 is returned for no
digits by the parser of a radix, and otherwise a number that is converted to the value rounded. -/
structure Reads (r : Rounding) (parser : Parser) (text : List UInt8) : Prop where
  rest : (parser.parse text).2 = parser.rest text
  empty : ∀ radix, parser = .radix radix →
    ((parser.parse text).1 = -1 ↔ parser.digits text = [])
  value : (∀ radix, parser = .radix radix → parser.digits text ≠ []) →
    r.round (parser.parse text).1 = r.round (parser.value text)

/-- Two texts are parsed as they should be, and so that the larger value gives no smaller
number. -/
structure Monotone (r : Rounding) (parser : Parser) (first second : List UInt8) : Prop where
  readsFirst : Reads r parser first
  readsSecond : Reads r parser second
  monotone : parser.digits first ≠ [] → parser.digits second ≠ [] →
    parser.value first ≤ parser.value second →
    atMost (r.round (parser.parse first).1) (r.round (parser.parse second).1)

/-- What `parseInt` should return: the value of the digits rounded, with the sign. -/
def parsedInt (r : Rounding) (string : List UInt8) (radix : Option ℤ) : Number :=
  match parseIntText string radix with
  | some (minus, radix, p) =>
    if (Parser.radix radix).digits p = [] then .nan
    else Json.signed minus (r.round ((Parser.radix radix).value p))
  | none => .nan

/-- `parseInt` returns what it should for two strings, and for the one with more digits neither
a NaN nor a number that is nearer to zero. -/
structure Grows (r : Rounding) (radix : Option ℤ) (first second : List UInt8) : Prop where
  exactFirst : parseInt r first radix = parsedInt r first radix
  exactSecond : parseInt r second radix = parsedInt r second radix
  longer : ∀ minus base p q, parseIntText first radix = some (minus, base, p) →
    parseIntText second radix = some (minus, base, q) →
    (Parser.radix base).digits p <+: (Parser.radix base).digits q →
    (Parser.radix base).digits p ≠ [] →
    if minus then atMost (parseInt r second radix) (parseInt r first radix)
    else atMost (parseInt r first radix) (parseInt r second radix)

/-- The value has room in the accumulator, and no character that `njs_char_to_hex` takes for a
digit without need is behind hexadecimal digits. -/
def Small (parser : Parser) (text : List UInt8) : Prop :=
  match parser with
  | .radix radix => (Parser.radix radix).value text < 2 ^ 63
  | .hex => Parser.hex.value text < 2 ^ 64 ∧
      ∀ c ∈ (Parser.hex.rest text).head?, ¬(16 ≤ c ∧ c ≤ 25)
  | parser => parser.value text < 2 ^ 64

/-- The value of the digits that `parseInt` reads has room in 63 bits. -/
def SmallInt (radix : Option ℤ) (string : List UInt8) : Prop :=
  ∀ minus base p, parseIntText string radix = some (minus, base, p) →
    (Parser.radix base).value p < 2 ^ 63

end Njs.Integers
