import Njs.Number
import Mathlib.Data.List.Basic

/-!
# The tokens of a script

`njs_lexer.c`, from the tokens on: the queue of the tokens that were read ahead, and the two
ways to ask for the next token. How a token is cut out of the text is not embedded, a lexer
has the list of the tokens that are still to be cut. Every allocation succeeds.
-/

namespace Njs.Parsing

/-- `njs_token_t`, in the order of the source. -/
inductive Token
  | again | error | illegal
  | end | space | lineEnd
  | doubleQuote | singleQuote
  | openParenthesis | closeParenthesis | openBracket | closeBracket | openBrace | closeBrace
  | comma | dot | ellipsis | semicolon
  | colon | conditional
  | assignment | arrow | additionAssignment | substractionAssignment | multiplicationAssignment
  | exponentiationAssignment | divisionAssignment | remainderAssignment | leftShiftAssignment
  | rightShiftAssignment | unsignedRightShiftAssignment | bitwiseOrAssignment
  | bitwiseXorAssignment | bitwiseAndAssignment
  | equal | strictEqual | notEqual | strictNotEqual
  | addition | unaryPlus | increment | postIncrement
  | substraction | unaryNegation | decrement | postDecrement
  | multiplication | exponentiation | division | remainder
  | less | lessOrEqual | leftShift
  | greater | greaterOrEqual | rightShift | unsignedRightShift
  | bitwiseOr | logicalOr | bitwiseXor | bitwiseAnd | logicalAnd | bitwiseNot | logicalNot
  | in | instanceof | typeof | void | new | delete | yield
  | digit | letter
  | null | number | boolean | string
  | escapeString | unterminatedString | name
  | object | objectValue | property | propertyInit | propertyDelete | propertyGetter
  | propertySetter | protoInit
  | array
  | grave | templateLiteral
  | function | functionExpression | functionCall | methodCall | argument | return
  | regexp
  | external
  | statement | block | var | if | else | branching | while | do | for | forIn | break
  | continue | switch | case | default | with | try | catch | finally | throw
  | this | globalObject | nonLocalThis | arguments | eval
  | import | export
  | reserved
  deriving DecidableEq

/-- The number of a token. -/
def Token.toInt (t : Token) : ℤ := (t.ctorIdx : ℤ) - 2

/-- `token <= NJS_TOKEN_ILLEGAL`. -/
def Token.Failed (t : Token) : Prop := t.toInt ≤ Token.illegal.toInt

instance (t : Token) : Decidable t.Failed := inferInstanceAs (Decidable (_ ≤ _))

/-- `njs_lexer_token_t`, but for the line and the hash of the text. -/
structure LexerToken where
  token : Token
  text : String
  number : Number
  deriving DecidableEq

/-- The token at the end of the text. -/
def endToken : LexerToken := ⟨.end, "", .finite 0⟩

/-- `njs_keyword_t`. -/
structure Keyword where
  name : String
  token : Token
  number : Number

/-- `njs_keywords`. -/
def keywords : List Keyword :=
  [⟨"null", .null, .finite 0⟩, ⟨"false", .boolean, .finite 0⟩, ⟨"true", .boolean, .finite 1⟩,
    ⟨"in", .in, .finite 0⟩, ⟨"typeof", .typeof, .finite 0⟩,
    ⟨"instanceof", .instanceof, .finite 0⟩, ⟨"void", .void, .finite 0⟩,
    ⟨"new", .new, .finite 0⟩, ⟨"delete", .delete, .finite 0⟩, ⟨"yield", .yield, .finite 0⟩,
    ⟨"var", .var, .finite 0⟩, ⟨"if", .if, .finite 0⟩, ⟨"else", .else, .finite 0⟩,
    ⟨"while", .while, .finite 0⟩, ⟨"do", .do, .finite 0⟩, ⟨"for", .for, .finite 0⟩,
    ⟨"break", .break, .finite 0⟩, ⟨"continue", .continue, .finite 0⟩,
    ⟨"switch", .switch, .finite 0⟩, ⟨"case", .case, .finite 0⟩,
    ⟨"default", .default, .finite 0⟩, ⟨"function", .function, .finite 0⟩,
    ⟨"return", .return, .finite 0⟩, ⟨"with", .with, .finite 0⟩, ⟨"try", .try, .finite 0⟩,
    ⟨"catch", .catch, .finite 0⟩, ⟨"finally", .finally, .finite 0⟩,
    ⟨"throw", .throw, .finite 0⟩,
    ⟨"import", .import, .finite 0⟩, ⟨"export", .export, .finite 0⟩,
    ⟨"this", .this, .finite 0⟩, ⟨"arguments", .arguments, .finite 0⟩,
    ⟨"eval", .eval, .finite 0⟩,
    ⟨"await", .reserved, .finite 0⟩, ⟨"class", .reserved, .finite 0⟩,
    ⟨"const", .reserved, .finite 0⟩, ⟨"debugger", .reserved, .finite 0⟩,
    ⟨"enum", .reserved, .finite 0⟩, ⟨"extends", .reserved, .finite 0⟩,
    ⟨"implements", .reserved, .finite 0⟩, ⟨"interface", .reserved, .finite 0⟩,
    ⟨"let", .reserved, .finite 0⟩, ⟨"package", .reserved, .finite 0⟩,
    ⟨"private", .reserved, .finite 0⟩, ⟨"protected", .reserved, .finite 0⟩,
    ⟨"public", .reserved, .finite 0⟩, ⟨"static", .reserved, .finite 0⟩,
    ⟨"super", .reserved, .finite 0⟩]

/-- The keyword that a text is, by `njs_lvlhsh_find` in the hash of the keywords. -/
def findKeyword (text : String) : Option Keyword := keywords.find? (·.name = text)

/-- `njs_lexer_t`. The position in the text is the list `rest` of the tokens that
`njs_lexer_next_token` has still to return. -/
structure Lexer where
  lexerToken : Option LexerToken
  preread : List LexerToken
  keyword : Bool
  prevToken : Token
  rest : List LexerToken

/-- `njs_lexer_init`, for a text with these tokens. -/
def Lexer.init (rest : List LexerToken) : Lexer := ⟨none, [], false, .illegal, rest⟩

/-- `lexer_token->text` of the current token. -/
def Lexer.text (lexer : Lexer) : String := lexer.lexerToken.elim "" LexerToken.text

/-- `lexer_token->number` of the current token. -/
def Lexer.number (lexer : Lexer) : Number :=
  lexer.lexerToken.elim (.finite 0) LexerToken.number

/-- `njs_lexer_next_token`. -/
def Lexer.nextToken (lexer : Lexer) : LexerToken × Lexer :=
  match lexer.rest with
  | [] => (endToken, lexer)
  | lt :: rest => (lt, { lexer with rest })

/-- `njs_lexer_token_push`. -/
def Lexer.tokenPush (lexer : Lexer) : Lexer :=
  let (lt, lexer) := lexer.nextToken
  { lexer with preread := lexer.preread ++ [lt] }

/-- `njs_lexer_keyword`, with the token that it leaves and `lexer->keyword`. -/
def lexerKeyword (lt : LexerToken) : LexerToken × Bool :=
  match findKeyword lt.text with
  | some keyword => ({ lt with token := keyword.token, number := keyword.number }, true)
  | none => (lt, false)

/-- `njs_lexer_token_name_resolve`, with the token that it leaves. -/
def Lexer.tokenNameResolve (lexer : Lexer) (lt : LexerToken) : LexerToken × Lexer :=
  if lt.token = .name then
    let (lt, keyword) := lexerKeyword lt
    (lt, { lexer with keyword })
  else (lt, lexer)

/-- `njs_lexer_token_pop`. The queue must not be empty. -/
def Lexer.tokenPop (lexer : Lexer) : LexerToken × Lexer :=
  match lexer.preread with
  | [] => (endToken, lexer)
  | lt :: preread => (lt, { lexer with preread })

/-- `njs_lexer_token`. -/
def lexerToken (lexer : Lexer) : Token × Lexer :=
  let lexer := { lexer with
    prevToken := lexer.lexerToken.elim lexer.prevToken LexerToken.token }
  let lexer := if lexer.preread = [] then lexer.tokenPush else lexer
  let (lt, lexer) := lexer.tokenPop
  let (lt, lexer) := lexer.tokenNameResolve lt
  (lt.token, { lexer with lexerToken := some lt })

/-- `njs_lexer_rollback`. -/
def Lexer.rollback (lexer : Lexer) : Lexer :=
  { lexer with preread := lexer.lexerToken.toList ++ lexer.preread }

/-- An iteration of `njs_lexer_peek_token` that looks at place `link` of the queue, where there
may be no token yet. The result is missing where the loop is left. -/
def peekStep (lexer : Lexer) (link : ℕ) : Option Lexer :=
  match lexer.preread[link]? with
  | some lt => if lt.token = .division ∨ lt.token = .end then none else some lexer
  | none => some lexer.tokenPush

/-- The loop of `njs_lexer_peek_token` with so many iterations after this one. The result has
the place of the last token that it saw. -/
def peekLoop : ℕ → Lexer → ℕ → Lexer × ℕ
  | 0, lexer, link => ((peekStep lexer link).getD lexer, link)
  | n + 1, lexer, link =>
    match peekStep lexer link with
    | none => (lexer, link)
    | some lexer => peekLoop n lexer (link + 1)

/-- `njs_lexer_peek_token`. -/
def lexerPeekToken (lexer : Lexer) (offset : ℕ) : Token × Lexer :=
  let (lexer, link) := peekLoop offset lexer 0
  let (lt, lexer) := lexer.tokenNameResolve (lexer.preread.getD link endToken)
  (lt.token, { lexer with preread := lexer.preread.set link lt })

/-- The tokens that were cut out of the text, or are still to be. -/
def Lexer.size (lexer : Lexer) : ℕ := lexer.preread.length + lexer.rest.length

/-- The loop of `njs_parser_token`, with fuel for its iterations. -/
def tokenLoop : ℕ → Lexer → Option (Token × Lexer)
  | 0, _ => none
  | fuel + 1, lexer =>
    let (token, lexer) := lexerToken lexer
    if token = .lineEnd then tokenLoop fuel lexer else some (token, lexer)

/-- `njs_parser_token`. Every iteration that goes on takes a token. -/
def parserToken (lexer : Lexer) : Option (Token × Lexer) := tokenLoop (lexer.size + 1) lexer

/-- The loop of `njs_parser_peek_token`, with fuel for its iterations. -/
def peekTokenLoop : ℕ → Lexer → ℕ → Option (Token × Lexer × ℕ)
  | 0, _, _ => none
  | fuel + 1, lexer, offset =>
    let (token, lexer) := lexerPeekToken lexer offset
    if token = .lineEnd then peekTokenLoop fuel lexer (offset + 1)
    else some (token, lexer, offset + 1)

/-- `njs_parser_peek_token`, with the offset that it leaves. -/
def parserPeekToken (lexer : Lexer) (offset : ℕ) : Option (Token × Lexer × ℕ) :=
  peekTokenLoop (lexer.size + 1) lexer offset

end Njs.Parsing
