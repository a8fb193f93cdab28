import Njs.Integers.Parsers
import Njs.Json.Text
import Njs.Utf8Safe
import Njs.Json.Unescape

/-!
# Escapes of string and template literals

`njs_parser_escape_string_calc_length` counts the bytes and the characters of a literal, and
`njs_parser_escape_string_create` writes them. Both read the text between the quotes, which the
lexer ends only behind a complete escape. Requests for memory are granted.
-/

namespace Njs.Literal

open Integers (hexParse)
open Json (escapeMark isHigh isLow pairCode)

/-! ## The lexer -/

/-- `njs_lexer_string`, from behind the first quote: the text up to the other one, if it is
terminated. -/
def lexerString (quote : UInt8) : List UInt8 → Option (List UInt8)
  | [] => none
  | [92] => none
  | 92 :: 13 :: 10 :: p => (lexerString quote p).map fun text => 92 :: 13 :: 10 :: text
  | 92 :: c :: p => (lexerString quote p).map fun text => 92 :: c :: text
  | c :: p =>
    if c = 13 ∨ c = 10 then none
    else if c = quote then some []
    else (lexerString quote p).map fun text => c :: text

/-- `njs_parser_template_string`, up to where it creates the string: the text up to a backtick
or to `${`. -/
def templateString : List UInt8 → Option (List UInt8)
  | [] => none
  | [92] => none
  | 92 :: c :: p => (templateString p).map fun text => 92 :: c :: text
  | 36 :: 123 :: _ => some []
  | c :: p => if c = 96 then some [] else (templateString p).map fun text => c :: text

/-! ## What an iteration reads -/

/-- Why a literal is not created. -/
inductive Failure
  /-- `Invalid Unicode code point`. -/
  | syntaxError
  /-- A byte beyond the end of the text is read, or one beyond the end of the string is
  written. -/
  | fault
  deriving DecidableEq

/-- What an iteration of the loops reads, with the text behind it. -/
inductive Step
  /-- A line continuation. -/
  | skip (src : List UInt8)
  /-- A character, or an escape of one. -/
  | char (cp : ℕ) (src : List UInt8)
  /-- The value of an escape with hexadecimal digits. -/
  | hex (cp : ℕ) (src : List UInt8)
  deriving DecidableEq

/-- The text behind a line continuation that begins with a carriage return. -/
def skipLineFeed (src : List UInt8) : List UInt8 := if src.head? = some 10 then src.tail else src

/-- A character that is no escape, or behind a backslash. -/
def plainChar (c : UInt8) (src : List UInt8) : Except Failure Step :=
  if c ≥ 0x80 then
    match Utf8.safeDecode2 (c :: src) with
    | some (cp, src) => .ok (.char cp src)
    | none => .error .fault
  else .ok (.char c.toNat src)

/-- An escape with a fixed number of digits in `njs_parser_escape_string_calc_length`. -/
def calcFixed (hexLength : ℕ) (src : List UInt8) : Except Failure Step :=
  if src.length < hexLength then .error .syntaxError
  else if (hexParse (src.take hexLength)).2 ≠ [] then .error .syntaxError
  else .ok (.hex (hexParse (src.take hexLength)).1 (src.drop hexLength))

/-- An escape with digits between braces there. -/
def calcBraced (src : List UInt8) : Except Failure Step :=
  if (hexParse src).2 = src ∨ src.length - (hexParse src).2.length > 6 then .error .syntaxError
  else if (hexParse src).2.head? ≠ some 125 then .error .syntaxError
  else .ok (.hex (hexParse src).1 (hexParse src).2.tail)

/-- The cases of a character behind a backslash there. -/
def calcEscape (e : UInt8) (src : List UInt8) : Except Failure Step :=
  if e = 117 then
    if src.head? ≠ some 123 then calcFixed 4 src else calcBraced src.tail
  else if e = 120 then calcFixed 2 src
  else if e = 13 then .ok (.skip (skipLineFeed src))
  else if e = 10 then .ok (.skip src)
  else plainChar e src

/-- An iteration of the loop of `njs_parser_escape_string_calc_length`, up to the value of an
escape. -/
def calcStep : List UInt8 → Except Failure Step
  | [] => .error .fault
  | c :: src =>
    if c = escapeMark then
      match src with
      | [] => .error .fault
      | e :: src => calcEscape e src
    else plainChar c src

/-- An escape with a fixed number of digits in `njs_parser_escape_string_create`. -/
def createFixed (hexLength : ℕ) (src : List UInt8) : Except Failure Step :=
  if src.length < hexLength then .error .fault
  else
    .ok (.hex (hexParse (src.take hexLength)).1
      ((hexParse (src.take hexLength)).2 ++ src.drop hexLength))

/-- An escape with digits between braces there. -/
def createBraced (src : List UInt8) : Except Failure Step :=
  .ok (.hex (hexParse src).1 (hexParse src).2.tail)

/-- The characters behind a backslash that stand for others. -/
def simpleEscape (c : UInt8) : UInt8 :=
  if c = 48 then 0
  else if c = 98 then 8
  else if c = 102 then 12
  else if c = 110 then 10
  else if c = 114 then 13
  else if c = 116 then 9
  else if c = 118 then 11
  else c

/-- The cases of a character behind a backslash there. -/
def createEscape (e : UInt8) (src : List UInt8) : Except Failure Step :=
  if e = 117 then
    if src.head? ≠ some 123 then createFixed 4 src else createBraced src.tail
  else if e = 120 then createFixed 2 src
  else if e = 13 then .ok (.skip (skipLineFeed src))
  else if e = 10 then .ok (.skip src)
  else plainChar (simpleEscape e) src

/-- An iteration of the loop of `njs_parser_escape_string_create`, up to the value of an
escape. -/
def createStep : List UInt8 → Except Failure Step
  | [] => .error .fault
  | c :: src =>
    if c = escapeMark then
      match src with
      | [] => .error .fault
      | e :: src => createEscape e src
    else plainChar c src

/-! ## Pairs -/

/-- `src[0] == '\\' && src[1] == 'u'`. Behind the text there is a quote. -/
def beginsUnicode (src : List UInt8) : Bool := src.take 2 = [escapeMark, 117]

/-- What both functions do with the value of an escape: the new `cp_pair`, and the code points
that are counted or encoded. -/
def pairing (cpPair cp : ℕ) (src : List UInt8) : ℕ × List ℕ :=
  if cpPair ≠ 0 then
    if 0xDC00 ≤ cp ∧ cp ≤ 0xDFFF then (0, [pairCode cpPair cp])
    else if 0xD800 ≤ cp ∧ cp ≤ 0xDBFF then (0, [Utf8.replacement, Utf8.replacement])
    else (0, [Utf8.replacement, cp])
  else if 0xD800 ≤ cp ∧ cp ≤ 0xDFFF then
    if cp ≤ 0xDBFF ∧ beginsUnicode src then (cp, []) else (0, [Utf8.replacement])
  else (0, [cp])

/-! ## The two loops -/

/-- `njs_parser_escape_string_calc_length`: the size and the length. The iterations are bounded
by the bytes of the text. -/
def calcLoop : ℕ → ℕ → ℕ → ℕ → List UInt8 → Except Failure (ℕ × ℕ)
  | 0, _, size, length, src => if src = [] then .ok (size, length) else .error .fault
  | n + 1, cpPair, size, length, src =>
    if src = [] then .ok (size, length)
    else
      (calcStep src).bind fun
        | .skip src => calcLoop n cpPair size length src
        | .char cp src => calcLoop n cpPair (size + Utf8.size cp) (length + 1) src
        | .hex cp src =>
          calcLoop n (pairing cpPair cp src).1
            (size + ((pairing cpPair cp src).2.map Utf8.size).sum)
            (length + (pairing cpPair cp src).2.length) src

/-- `njs_utf8_encode` behind the bytes of a string that has room for `size` bytes. -/
def encodePoint (size : ℕ) (dst : List UInt8) (cp : ℕ) : Except Failure (List UInt8) :=
  match Utf8.encode (cp % 2 ^ 32) with
  | some bytes => if dst.length + bytes.length ≤ size then .ok (dst ++ bytes) else .error .fault
  | none => .error .syntaxError

/-- The loop of `njs_parser_escape_string_create`. -/
def createLoop (size : ℕ) : ℕ → ℕ → List UInt8 → List UInt8 → Except Failure (List UInt8)
  | 0, _, dst, src => if src = [] then .ok dst else .error .fault
  | n + 1, cpPair, dst, src =>
    if src = [] then .ok dst
    else
      (createStep src).bind fun
        | .skip src => createLoop size n cpPair dst src
        | .char cp src =>
          (encodePoint size dst cp).bind fun dst => createLoop size n cpPair dst src
        | .hex cp src =>
          ((pairing cpPair cp src).2.foldlM (encodePoint size) dst).bind fun dst =>
            createLoop size n (pairing cpPair cp src).1 dst src

/-- `njs_parser_escape_string_calc_length`. -/
def calcLength (text : List UInt8) : Except Failure (ℕ × ℕ) := calcLoop text.length 0 0 0 text

/-- `njs_parser_escape_string_create`: the bytes of the string and its length. -/
def escapeStringCreate (text : List UInt8) : Except Failure (List UInt8 × ℕ) := do
  let counted ← calcLength text
  let bytes ← createLoop counted.1 text.length 0 [] text
  return (bytes, counted.2)

end Njs.Literal

/-!
## What literals stand for

A literal is a sequence of characters, escapes and line continuations. ECMAScript gives each of
them its characters, or the unit of an escaped surrogate. Some are read otherwise by the parser:
the tokens say which they are.
-/

namespace Njs.Literal

open Integers (positional)
open Json (escapeMark isHigh isLow pairCode utf8 encodeUnit replacement)

/-- A part of a literal. -/
inductive Token
  /-- A character, alone or behind a backslash. -/
  | char (u : ℕ)
  /-- An escape with `\x`. -/
  | hex (u : ℕ)
  /-- An escape with `\u`. -/
  | unicode (u : ℕ)
  /-- A backslash and a line feed, a carriage return or both. -/
  | continuation
  /-- A carriage return without a backslash. It is perhaps followed by a line feed. -/
  | carriageReturn (lineFeed : Bool)
  /-- A backslash and U+2028 or U+2029, which is a line continuation. -/
  | separator (u : ℕ)
  /-- An escape with more than six digits between braces. -/
  | long (u : ℕ)
  /-- A backslash and a digit. This is no literal. -/
  | illegalChar (u : ℕ)
  /-- An escape with `\x` and digits of which some are no hexadecimal digits. -/
  | illegalHex (u : ℕ)
  /-- Such an escape with `\u`. -/
  | illegalUnicode (u : ℕ)
  deriving DecidableEq

/-- A hexadecimal digit. -/
def hexDigit (c : UInt8) : Option ℕ := Integers.radixDigit 16 c

/-- The digits that a text begins with, if there are any and they are `}` at their end. -/
def bracedDigits (digit : UInt8 → Option ℕ) (src : List UInt8) : Option (List UInt8 × List UInt8) :=
  let digits := src.takeWhile fun c => (digit c).isSome
  let rest := src.dropWhile fun c => (digit c).isSome
  if digits ≠ [] ∧ rest.head? = some 125 then some (digits, rest.tail) else none

/-- So many digits. -/
def fixedDigits (digit : UInt8 → Option ℕ) (n : ℕ) (src : List UInt8) :
    Option (List UInt8 × List UInt8) :=
  if n ≤ src.length ∧ (src.take n).all fun c => (digit c).isSome then some (src.take n, src.drop n)
  else none

/-- An escape whose digits are between braces. The parser takes some control characters for
digits. -/
def bracedToken (src : List UInt8) : Option (Token × List UInt8) :=
  match bracedDigits hexDigit src, bracedDigits Str.charToHex src with
  | some (digits, src), _ =>
    let u := positional hexDigit 16 0 digits
    if 0x110000 ≤ u then none
    else some (if digits.length ≤ 6 then .unicode u else .long u, src)
  | none, some (digits, src) =>
    let u := positional Str.charToHex 16 0 digits
    if 0x110000 ≤ u ∨ 6 < digits.length then none else some (.illegalUnicode u, src)
  | none, none => none

/-- An escape with a fixed number of digits. -/
def fixedToken (legal illegal : ℕ → Token) (n : ℕ) (src : List UInt8) :
    Option (Token × List UInt8) :=
  match fixedDigits hexDigit n src, fixedDigits Str.charToHex n src with
  | some (digits, src), _ => some (legal (positional hexDigit 16 0 digits), src)
  | none, some (digits, src) => some (illegal (positional Str.charToHex 16 0 digits), src)
  | none, none => none

/-- The code points that are no surrogates. -/
def isScalar (u : ℕ) : Bool := u < 0xD800 || (0xE000 ≤ u && u < 0x110000)

/-- A character, with the text behind it. -/
def character (src : List UInt8) : Option (ℕ × List UInt8) :=
  match Utf8.decode src with
  | some (u, src) => if isScalar u then some (u, src) else none
  | none => none

/-- Whether a text begins with a decimal digit. -/
def beginsDigit (src : List UInt8) : Bool := src.head?.any fun c => 48 ≤ c ∧ c ≤ 57

/-- The part with a character behind a backslash that is not `u` or `x` and does not end a line. -/
def escapedToken (e : UInt8) (src : List UInt8) : Option (Token × List UInt8) :=
  match character (e :: src) with
  | none => none
  | some (u, rest) =>
    if u = 0x2028 ∨ u = 0x2029 then some (.separator u, rest)
    else if e = 48 ∧ ¬beginsDigit src then some (.char 0, src)
    else if e = 48 then some (.illegalChar 0, src)
    else if 48 ≤ e ∧ e ≤ 57 then some (.illegalChar u, rest)
    else if e < 128 then some (.char (simpleEscape e).toNat, src)
    else some (.char u, rest)

/-- The part that begins with a backslash. -/
def escapeToken (e : UInt8) (src : List UInt8) : Option (Token × List UInt8) :=
  if e = 117 then
    if src.head? ≠ some 123 then fixedToken .unicode .illegalUnicode 4 src
    else bracedToken src.tail
  else if e = 120 then fixedToken .hex .illegalHex 2 src
  else if e = 13 then some (.continuation, skipLineFeed src)
  else if e = 10 then some (.continuation, src)
  else escapedToken e src

/-- The part of a literal at the beginning of a text, and what follows it. -/
def token : List UInt8 → Option (Token × List UInt8)
  | [] => none
  | c :: src =>
    if c = escapeMark then
      match src with
      | [] => none
      | e :: src => escapeToken e src
    else if c = 13 then some (.carriageReturn (src.head? = some 10), src)
    else (character (c :: src)).map fun result => (.char result.1, result.2)

/-- The parts of a literal, if it is one of them after another. -/
inductive Tokens : List UInt8 → List Token → Prop
  | nil : Tokens [] []
  | cons {p q : List UInt8} {tok : Token} {toks : List Token} (h : token p = some (tok, q))
    (hrest : Tokens q toks) : Tokens p (tok :: toks)

/-- What a part of a literal stands for: characters, or a unit. -/
inductive Part
  | text (bytes : List UInt8)
  | unit (u : ℕ)

/-- What ECMAScript says that a part stands for, if it is one of a literal. -/
def Token.script : Token → Part
  | char u | hex u | illegalChar u | illegalHex u => .text (utf8 u)
  | unicode u | long u | illegalUnicode u => .unit u
  | continuation | separator _ => .text []
  | carriageReturn lineFeed => .text (if lineFeed then [] else [10])

/-- The bytes of parts. A pair of units next to each other is joined, and any other surrogate is
replaced. -/
def scriptBytes : List Part → List UInt8
  | [] => []
  | .text bytes :: parts => bytes ++ scriptBytes parts
  | .unit u :: .unit l :: parts =>
    if isHigh u && isLow l then utf8 (pairCode u l) ++ scriptBytes parts
    else encodeUnit u ++ scriptBytes (.unit l :: parts)
  | .unit u :: parts => encodeUnit u ++ scriptBytes parts

/-- A part that is none of a literal. -/
def Token.isIllegal : Token → Bool
  | illegalChar _ | illegalHex _ | illegalUnicode _ => true
  | _ => false

/-- An escape with more than six digits between braces. -/
def Token.isLong : Token → Bool
  | long _ => true
  | _ => false

/-- A line ending that the parser does not read as ECMAScript does. -/
def Token.isLineEnding : Token → Bool
  | carriageReturn _ | separator _ => true
  | _ => false

/-- The value of a text as a literal. -/
def Value (text bytes : List UInt8) : Prop :=
  ∃ toks, Tokens text toks ∧ (∀ tok ∈ toks, tok.isIllegal = false) ∧
    bytes = scriptBytes (toks.map Token.script)

/-- The text is encoded in UTF-8. -/
def IsUtf8 (text : List UInt8) : Prop :=
  ∃ us : List ℕ, text = us.flatMap utf8 ∧ ∀ u ∈ us, isScalar u = true

/-- The lexer finds the text in a string or in a template. -/
def Accepted (text : List UInt8) : Prop :=
  (∃ quote p, lexerString quote p = some text) ∨ ∃ p, templateString p = some text

/-- A literal is decoded as it should be: it is created with the bytes of its value, which are
those of as many characters as its length says, and both are what was counted. A text without a
value is an error. -/
structure Decodes (text : List UInt8) : Prop where
  value : ∀ bytes, Value text bytes → ∃ us : List ℕ, (∀ u ∈ us, isScalar u = true) ∧
    bytes = us.flatMap utf8 ∧ calcLength text = .ok (bytes.length, us.length) ∧
    escapeStringCreate text = .ok (bytes, us.length)
  error : (∀ bytes, ¬Value text bytes) → escapeStringCreate text = .error .syntaxError

/-- What a part of a literal is for the pairs of a string of JSON: a unit, or something between
units. -/
def Token.item (tok : Token) : Json.Item :=
  match tok.script with
  | .unit u => .unit u
  | .text _ => .byte 0

/-- There is nothing in a literal that is read otherwise by the parser, and no even run of units
that could begin a pair is in front of one that could end it. -/
structure Plain (toks : List Token) : Prop where
  legal : ∀ tok ∈ toks, tok.isIllegal = false
  short : ∀ tok ∈ toks, tok.isLong = false
  lines : ∀ tok ∈ toks, tok.isLineEnding = false
  pairs : ¬Json.EvenRun (toks.map Token.item)

/-- The parser and ECMAScript read the same, or both read an error. -/
def ReadAlike (toks : List Token) : Prop :=
  ((∃ tok ∈ toks, tok.isLong = true) ∧ ∃ tok ∈ toks, tok.isIllegal = true) ∨ Plain toks

end Njs.Literal
