import Njs.Json.Text

/-!
# Parsing JSON

`JSON.parse()` without a reviver. A pointer into the text is the list of the bytes from there
to its end, so reading at or beyond the end is a fault.
-/

namespace Njs.Json

/-- Why a text is not parsed. -/
inductive ParseError
  /-- `njs_syntax_error` with a message and a position. -/
  | syntaxError (message : String) (position : ℤ)
  | memoryError
  | internalError (message : String)
  /-- A byte beyond the end of the text is read. -/
  | fault
  deriving DecidableEq

/-- A request for memory. -/
inductive Request
  | object
  | property
  | insert
  | array
  | element
  | unescaped
  | string
  deriving DecidableEq

/-- `njs_json_parse_ctx_t`, without the depth. -/
structure Context where
  strtod : Strtod
  text : List UInt8
  /-- Whether a request is granted, by the number of bytes from there to the end. -/
  grants : Request → ℕ → Bool

/-- A function of the parser: it returns what it parsed and the place behind it. -/
abbrev Parser (β : Type) : Type := List UInt8 → Except ParseError (β × List UInt8)

variable (ctx : Context)

/-- `njs_json_parse_exception`, so many bytes before the end. -/
def parseException (message : String) (left : ℕ) : ParseError :=
  let length := ((Utf8.length (ctx.text.take (ctx.text.length - left))).getD 0)
  .syntaxError message (if length < 0 then 0 else length)

/-- `njs_json_skip_space`. -/
def skipSpace (p : List UInt8) : List UInt8 := p.dropWhile isSpace

/-- The states of the first pass over a string. -/
inductive StringState
  | usual
  | escape
  | encoded1
  | encoded2
  | encoded3
  | encoded4
  deriving DecidableEq

/-- `(state == sw_encoded4) ? sw_usual : state + 1`. -/
def StringState.next : StringState → StringState
  | encoded1 => encoded2
  | encoded2 => encoded3
  | encoded3 => encoded4
  | _ => usual

/-- The first pass over a string: how many bytes its escapes have in excess, and its last
quotation mark. -/
def scanString (state : StringState) (surplus : ℕ) :
    List UInt8 → Except ParseError (ℕ × List UInt8)
  | [] => .error (parseException ctx "Unexpected end of input" 0)
  | ch :: p =>
    match state with
    | .usual =>
      if ch = quotationMark then .ok (surplus, ch :: p)
      else if ch = escapeMark then scanString .escape surplus p
      else if 32 ≤ ch then scanString .usual surplus p
      else .error (parseException ctx "Forbidden source char" (ch :: p).length)
    | .escape =>
      if (escaped ch).isSome then scanString .usual (surplus + 1) p
      else if ch = 117 then scanString .encoded1 (surplus + 3) p
      else .error (parseException ctx "Unknown escape char" (ch :: p).length)
    | state =>
      if (hexDigit ch).isSome then scanString state.next surplus p
      else .error (parseException ctx "Invalid Unicode escape sequence" (ch :: p).length)

/-- A digit of `njs_json_unicode`. -/
def unicodeDigit (c : UInt8) : ℕ :=
  let c := (c ||| 32) - 48
  (if c > 9 then c + (48 - 97 + 10) else c).toNat

/-- `njs_json_unicode`, with the place behind the digits. -/
def jsonUnicode : List UInt8 → Except ParseError (ℕ × List UInt8)
  | a :: b :: c :: d :: p =>
    .ok ((((unicodeDigit a <<< 4 ||| unicodeDigit b) <<< 4 ||| unicodeDigit c) <<< 4 |||
      unicodeDigit d), p)
  | _ => .error .fault

/-- `njs_utf8_encode` of a code point. -/
def utf8Encode (u : ℕ) : Except ParseError (List UInt8) :=
  match Utf8.encode u with
  | some bytes => .ok bytes
  | none => .error .fault

/-- `p[0] != '\\' || p[1] != 'u'`: if not, the place behind the two bytes. -/
def followingUnicode : List UInt8 → Except ParseError (Option (List UInt8))
  | [] => .error .fault
  | c :: p =>
    if c ≠ escapeMark then .ok none
    else
      match p with
      | [] => .error .fault
      | c :: p => if c ≠ 117 then .ok none else .ok (some p)

/-- The escape behind one of the first half of a pair. -/
def unescapeLow (utf : ℕ) (p : List UInt8) : Except ParseError (List UInt8 × List UInt8) := do
  let (utfLow, p) ← jsonUnicode p
  if 0xDC00 ≤ utfLow ∧ utfLow ≤ 0xDFFF then
    let bytes ← utf8Encode (0x10000 + ((utf - 0xD800) <<< 10) + (utfLow - 0xDC00))
    return (bytes, p)
  else if 0xD800 ≤ utfLow ∧ utfLow ≤ 0xDBFF then
    let bytes ← utf8Encode 0xFFFD
    return (bytes ++ bytes, p)
  else
    let first ← utf8Encode 0xFFFD
    let bytes ← utf8Encode utfLow
    return (first ++ bytes, p)

/-- The bytes of an escape, or of two that are a pair. -/
def unescapeUnicode (p : List UInt8) : Except ParseError (List UInt8 × List UInt8) := do
  let (utf, p) ← jsonUnicode p
  if ¬(0xD800 ≤ utf ∧ utf ≤ 0xDFFF) then
    let bytes ← utf8Encode utf
    return (bytes, p)
  else if 0xDBFF < utf then
    let bytes ← utf8Encode 0xFFFD
    return (bytes, p)
  else
    match ← followingUnicode p with
    | some p => unescapeLow utf p
    | none =>
      let bytes ← utf8Encode 0xFFFD
      return (bytes, p)

/-- The body of the loop of the second pass over a string. -/
def unescapeOne : List UInt8 → Except ParseError (List UInt8 × List UInt8)
  | [] => .error .fault
  | ch :: p =>
    if ch ≠ escapeMark then .ok ([ch], p)
    else
      match p with
      | [] => .error .fault
      | ch :: p =>
        match escaped ch with
        | some c => .ok ([c], p)
        | none => unescapeUnicode p

/-- The second pass over a string, up to its last quotation mark. The number of rounds is
bounded by that of the bytes. -/
def unescape (last : List UInt8) : ℕ → List UInt8 → Except ParseError (List UInt8)
  | 0, p => if p = last then .ok [] else .error .fault
  | n + 1, p =>
    if p = last then .ok []
    else do
      let (bytes, p) ← unescapeOne p
      let rest ← unescape last n p
      return bytes ++ rest

/-- The bytes of a string that begins at a place and has its last quotation mark at another,
`surplus` bytes of which are in excess. -/
def stringBytes (start last : List UInt8) (surplus : ℕ) : Except ParseError (List UInt8) :=
  if surplus = 0 then .ok (start.take (start.length - last.length))
  else if !ctx.grants .unescaped start.length then .error .memoryError
  else unescape last start.length start

/-- `njs_json_parse_string`. -/
def parseString : Parser (List UInt8)
  | [] => .error .fault
  | _ :: start => do
    let (surplus, last) ← scanString ctx .usual 0 start
    let bytes ← stringBytes ctx start last surplus
    if !ctx.grants .string start.length then .error .memoryError
    else return (bytes, last.tail)

/-- The rest of `njs_json_parse_number`, behind the sign. -/
def parseDigits (minus : Bool) (start : List UInt8) : Except ParseError (Tree × List UInt8) :=
  let (num, p) := ctx.strtod.parse start
  if p ≠ start then .ok (.number (signed minus num), p)
  else .error (parseException ctx "Unexpected number" start.length)

/-- `njs_json_parse_number`. -/
def parseNumber : Parser Tree
  | [] => .error .fault
  | c :: p =>
    if c = minusSign then
      if p = [] then .error (parseException ctx "Unexpected number" (c :: p).length)
      else parseDigits ctx true p
    else parseDigits ctx false (c :: p)

/-! ## Arrays and objects -/

/-- The loop of `njs_json_parse_array`. The place is the bracket or the comma before an element,
and the number of rounds is bounded by that of the bytes. -/
def parseElements (value : Parser Tree) :
    ℕ → Bool → List Tree → Parser (List Tree)
  | 0, _, _, _ => .error .fault
  | n + 1, empty, array, p =>
    match skipSpace p.tail with
    | [] => .error (parseException ctx "Unexpected end of input" 0)
    | c :: p =>
      if c = endArray then
        if empty then .ok (array, c :: p)
        else .error (parseException ctx "Trailing comma" ((c :: p).length + 1))
      else
        match value (c :: p) with
        | .error e => .error e
        | .ok (element, p) =>
          if !ctx.grants .element p.length then .error .memoryError
          else
            match skipSpace p with
            | [] => .error (parseException ctx "Unexpected end of input" 0)
            | c :: p =>
              if c = valueSeparator then
                parseElements value n false (array ++ [element]) (c :: p)
              else if c = endArray then .ok (array ++ [element], c :: p)
              else .error (parseException ctx "Unexpected token" (c :: p).length)

/-- `njs_json_parse_array`, below the depth. -/
def parseArray (value : Parser Tree) (p : List UInt8) : Except ParseError (Tree × List UInt8) :=
  if !ctx.grants .array p.length then .error .memoryError
  else
    match parseElements ctx value p.length true [] p with
    | .error e => .error e
    | .ok (array, p) => .ok (.array array, p.tail)

/-- The colon behind the name of a member, and the spaces around it. -/
def parseColon (p : List UInt8) : Except ParseError (List UInt8) :=
  match skipSpace p with
  | [] => .error (parseException ctx "Unexpected token" 0)
  | c :: p =>
    if c ≠ nameSeparator then .error (parseException ctx "Unexpected token" (c :: p).length)
    else
      match skipSpace p with
      | [] => .error (parseException ctx "Unexpected end of input" 0)
      | p => .ok p

/-- A member of an object, with the place behind its value. -/
def parseMember (value : Parser Tree) : Parser (List UInt8 × Tree) := fun p => do
  let (name, p) ← parseString ctx p
  let p ← parseColon ctx p
  let (v, p) ← value p
  return ((name, v), p)

/-- `njs_lvlhsh_insert` with `lhq.replace`. -/
def insertMember (object : List (List UInt8 × Tree)) (m : List UInt8 × Tree) :
    List (List UInt8 × Tree) :=
  object.filter (fun other => other.1 ≠ m.1) ++ [m]

/-- The property of a member is made and inserted. -/
def addMember (object : List (List UInt8 × Tree)) (m : List UInt8 × Tree) (left : ℕ) :
    Except ParseError (List (List UInt8 × Tree)) :=
  if !ctx.grants .property left then .error .memoryError
  else if !ctx.grants .insert left then .error (.internalError "lvlhsh insert/replace failed")
  else .ok (insertMember object m)

/-- The loop of `njs_json_parse_object`. The place is the bracket or the comma before a member,
and `prop` says whether there is a member before it. -/
def parseMembers (value : Parser Tree) :
    ℕ → Bool → List (List UInt8 × Tree) → Parser (List (List UInt8 × Tree))
  | 0, _, _, _ => .error .fault
  | n + 1, prop, object, p =>
    match skipSpace p.tail with
    | [] => .error (parseException ctx "Unexpected end of input" 0)
    | c :: p =>
      if c ≠ quotationMark then
        if c = endObject then
          if prop then .error (parseException ctx "Trailing comma" ((c :: p).length + 1))
          else .ok (object, c :: p)
        else .error (parseException ctx "Unexpected token" (c :: p).length)
      else
        match parseMember ctx value (c :: p) with
        | .error e => .error e
        | .ok (m, p) =>
          match addMember ctx object m p.length with
          | .error e => .error e
          | .ok object =>
            match skipSpace p with
            | [] => .error (parseException ctx "Unexpected end of input" 0)
            | c :: p =>
              if c = valueSeparator then parseMembers value n true object (c :: p)
              else if c = endObject then .ok (object, c :: p)
              else .error (parseException ctx "Unexpected token" (c :: p).length)

/-- `njs_json_parse_object`, below the depth. -/
def parseObject (value : Parser Tree) (p : List UInt8) : Except ParseError (Tree × List UInt8) :=
  if !ctx.grants .object p.length then .error .memoryError
  else
    match parseMembers ctx value p.length false [] p with
    | .error e => .error e
    | .ok (object, p) => .ok (.object object, p.tail)

/-! ## Values -/

/-- The bytes of a literal, after which the value goes on. -/
def parseLiteral (literal : List UInt8) (v : Tree) (p : List UInt8) :
    Except ParseError (Tree × List UInt8) :=
  if literal.isPrefixOf p then .ok (v, p.drop literal.length)
  else .error (parseException ctx "Unexpected token" p.length)

/-- The test of the depth in `njs_json_parse_object` and `njs_json_parse_array`. -/
def nested (depth : ℕ) (parse : Parser Tree) : Parser Tree := fun p =>
  if depth = 0 then .error (parseException ctx "Nested too deep" p.length) else parse p

/-- `njs_json_parse_value` at `ctx->depth`. -/
def parseValue : ℕ → Parser Tree
  | 0, _ => .error .fault
  | _ + 1, [] => .error .fault
  | depth + 1, c :: p =>
    if c = beginObject then nested ctx depth (parseObject ctx (parseValue depth)) (c :: p)
    else if c = beginArray then nested ctx depth (parseArray ctx (parseValue depth)) (c :: p)
    else if c = quotationMark then do
      let (s, p) ← parseString ctx (c :: p)
      return (.string s, p)
    else if c = 116 then parseLiteral ctx [116, 114, 117, 101] (.boolean true) (c :: p)
    else if c = 102 then parseLiteral ctx [102, 97, 108, 115, 101] (.boolean false) (c :: p)
    else if c = 110 then parseLiteral ctx [110, 117, 108, 108] .null (c :: p)
    -- The difference is an `int`: bytes before the digits pass the test too.
    else if c = minusSign ∨ (c.toNat : ℤ) - 48 ≤ 9 then parseNumber ctx (c :: p)
    else .error (parseException ctx "Unexpected token" (c :: p).length)

/-- `njs_json_parse` without a reviver. -/
def jsonParse : Except ParseError Tree :=
  match skipSpace ctx.text with
  | [] => .error (parseException ctx "Unexpected end of input" 0)
  | p =>
    match parseValue ctx maxDepth p with
    | .error e => .error e
    | .ok (v, p) =>
      match skipSpace p with
      | [] => .ok v
      | p => .error (parseException ctx "Unexpected token" p.length)

end Njs.Json
