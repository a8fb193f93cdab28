import Njs.Parsing.Pending

/-!
# Parameter lists

`njs_parser_lambda_arguments`, which takes a parameter list, and
`njs_parser_match_arrow_expression`, which looks ahead for one that an arrow follows.
-/

namespace Njs.Parsing

/-- `njs_variable_t`, the name and the index of it. -/
structure Variable where
  name : String
  index : ℕ
  deriving DecidableEq

/-- `njs_function_lambda_t`, as far as the parameters are concerned. -/
structure FunctionLambda where
  nargs : ℕ
  restParameters : Bool
  deriving DecidableEq

/-- `njs_function_lambda_alloc`. -/
def functionLambdaAlloc : FunctionLambda := ⟨0, false⟩

/-- `njs_parser_t`: the lexer, the variables of the scope, which is the scope of a function, and
the message of the syntax error. -/
structure Parser where
  lexer : Lexer
  vars : List Variable
  error : Option String

/-- The parser behind `njs_parser_scope_begin` for a function. -/
def Parser.ofLexer (lexer : Lexer) : Parser := ⟨lexer, [], none⟩

/-- `NJS_SCOPE_ARGUMENTS`. -/
def scopeArguments : ℕ := 3

/-- `sizeof(njs_value_t)`. -/
def sizeofValue : ℕ := 16

/-- `NJS_OK`. -/
def njsOk : ℤ := 0

/-- `NJS_DECLINED`. -/
def njsDeclined : ℤ := -3

/-- `njs_parser_token`. -/
def Parser.token (parser : Parser) : Option (Token × Parser) := do
  let (token, lexer) ← parserToken parser.lexer
  return (token, { parser with lexer })

/-- `njs_parser_syntax_error`. -/
def Parser.syntaxError (parser : Parser) (message : String) : Parser :=
  { parser with error := some message }

/-- `njs_parser_unexpected_token`. -/
def Parser.unexpectedToken (parser : Parser) (token : Token) : Token × Parser :=
  if token ≠ .end then
    (.illegal, parser.syntaxError ("Unexpected token \"" ++ parser.lexer.text ++ "\""))
  else (.illegal, parser.syntaxError "Unexpected end of input")

/-- `njs_parser_match`. -/
def Parser.match (parser : Parser) (token expected : Token) : Option (Token × Parser) :=
  if token = expected then parser.token else some (parser.unexpectedToken token)

/-- `njs_parser_variable_add` of a `var` in the scope of a function. -/
def variableAdd (vars : List Variable) (name : String) : Variable × List Variable :=
  match vars.find? (·.name = name) with
  | some var => (var, vars)
  | none => (⟨name, 0⟩, vars ++ [⟨name, 0⟩])

/-- Sets `arg->index` of the variable with this name. -/
def setIndex (vars : List Variable) (name : String) (index : ℕ) : List Variable :=
  vars.map fun var => if var.name = name then { var with index } else var

/-- `njs_parser_lambda_argument`. -/
def lambdaArgument (parser : Parser) (index : ℕ) : Option (Token × Parser) :=
  let (arg, vars) := variableAdd parser.vars parser.lexer.text
  if arg.index > 0 then
    some (.illegal, { parser with vars }.syntaxError "Duplicate parameter names")
  else { parser with vars := setIndex vars parser.lexer.text index }.token

/-- The ellipsis of `njs_parser_lambda_arguments`, with the new `rest_parameters`. Where the next
token is an error, it is no name, and the answer of the caller is `NJS_TOKEN_ILLEGAL` as well. -/
def Parser.ellipsis (parser : Parser) (token : Token) : Option (Token × Parser × Bool) :=
  if token = .ellipsis then do
    let (token, parser) ← parser.token
    return (token, parser, true)
  else some (token, parser, false)

/-- The comma of `njs_parser_lambda_arguments`. -/
def Parser.comma (parser : Parser) (token : Token) : Option (Token × Parser) :=
  if token = .comma then parser.token else some (token, parser)

/-- The name of an iteration of `njs_parser_lambda_arguments`, with the comma behind it. -/
def lambdaName (parser : Parser) (index : ℕ) : Option (Token × Parser) := do
  let (token, parser) ← lambdaArgument parser index
  if token.Failed then return (token, parser) else parser.comma token

/-- An iteration of the loop of `njs_parser_lambda_arguments` but for the two counters. It
leaves the loop where the token is an error. -/
def lambdaArgumentsStep (parser : Parser) (lambda : FunctionLambda) (index : ℕ) (token : Token) :
    Option (Token × Parser × FunctionLambda) :=
  if lambda.restParameters then some (.illegal, parser, lambda)
  else do
    let (token, parser, restParameters) ← parser.ellipsis token
    let lambda := { lambda with restParameters }
    if token ≠ .name then return (.illegal, parser, lambda)
    else
      let (token, parser) ← lambdaName parser index
      return (token, parser, lambda)

/-- The loop of `njs_parser_lambda_arguments`, with fuel for its iterations, and the last
`njs_parser_token`. -/
def lambdaArgumentsLoop : ℕ → Parser → FunctionLambda → ℕ → Token →
    Option (Token × Parser × FunctionLambda)
  | 0, _, _, _, _ => none
  | fuel + 1, parser, lambda, index, token =>
    if token = .closeParenthesis then do
      let (token, parser) ← parser.token
      return (token, parser, lambda)
    else do
      let (token, parser, lambda) ← lambdaArgumentsStep parser lambda index token
      if token.Failed then return (token, parser, lambda)
      else
        lambdaArgumentsLoop fuel parser { lambda with nargs := lambda.nargs + 1 }
          (index + sizeofValue) token

/-- `njs_parser_lambda_arguments`. Every iteration but the last two takes a token. -/
def lambdaArguments (parser : Parser) (lambda : FunctionLambda) (index : ℕ) (token : Token) :
    Option (Token × Parser × FunctionLambda) := do
  let (token, parser) ← parser.match token .openParenthesis
  if token.Failed then return (token, parser, lambda)
  else
    lambdaArgumentsLoop (parser.lexer.size + 2) parser { lambda with nargs := 0 } index token

/-- The ellipsis of `njs_parser_match_arrow_expression`, with the new `rest_parameters`. -/
def peekEllipsis (lexer : Lexer) (offset : ℕ) (token : Token) :
    Option (Token × Lexer × ℕ × Bool) :=
  if token = .ellipsis then do
    let (token, lexer, offset) ← parserPeekToken lexer offset
    return (token, lexer, offset, true)
  else some (token, lexer, offset, false)

/-- The comma of `njs_parser_match_arrow_expression`. -/
def peekComma (lexer : Lexer) (offset : ℕ) (token : Token) : Option (Token × Lexer × ℕ) :=
  if token = .comma then parserPeekToken lexer offset else some (token, lexer, offset)

/-- The part of an iteration of `njs_parser_match_arrow_expression` behind the name, with the
comma. It returns from the function, or goes on with a token and the offset. -/
def matchName (lexer : Lexer) (offset : ℕ) : Option (Except ℤ (Token × ℕ) × Lexer) := do
  let (token, lexer, offset) ← parserPeekToken lexer offset
  if token.Failed then return (.error token.toInt, lexer)
  else
    let (token, lexer, offset) ← peekComma lexer offset token
    if token.Failed then return (.error njsDeclined, lexer)
    else return (.ok (token, offset), lexer)

/-- An iteration of the loop of `njs_parser_match_arrow_expression`. It returns from the function,
or goes on with a token, the offset and `rest_parameters`. -/
def matchStep (lexer : Lexer) (offset : ℕ) (token : Token) (restParameters : Bool) :
    Option (Except ℤ (Token × ℕ × Bool) × Lexer) :=
  if restParameters then some (.error njsDeclined, lexer)
  else do
    let (token, lexer, offset, restParameters) ← peekEllipsis lexer offset token
    if token ≠ .name then return (.error njsDeclined, lexer)
    else
      let (result, lexer) ← matchName lexer offset
      return (result.map fun (token, offset) => (token, offset, restParameters), lexer)

/-- The loop of `njs_parser_match_arrow_expression`, with fuel for its iterations. It returns
from the function, or goes on with the offset behind the list. -/
def matchLoop : ℕ → Lexer → ℕ → Token → Bool → Option (Except ℤ ℕ × Lexer)
  | 0, _, _, _, _ => none
  | fuel + 1, lexer, offset, token, restParameters =>
    if token = .closeParenthesis then some (.ok offset, lexer)
    else do
      let (result, lexer) ← matchStep lexer offset token restParameters
      match result with
      | .error code => return (.error code, lexer)
      | .ok (token, offset, restParameters) => matchLoop fuel lexer offset token restParameters

/-- `njs_parser_match_arrow_expression` from the label `arrow` on. -/
def matchArrow (lexer : Lexer) (offset : ℕ) : Option (ℤ × Lexer) := do
  let (token, lexer, _) ← parserPeekToken lexer offset
  if token.Failed then return (njsDeclined, lexer)
  else if lexer.prevToken = .lineEnd then return (njsDeclined, lexer)
  else if token ≠ .arrow then return (njsDeclined, lexer)
  else return (njsOk, lexer)

/-- `njs_parser_match_arrow_expression`. Every iteration but the last two sees a token. -/
def matchArrowExpression (lexer : Lexer) (token : Token) : Option (ℤ × Lexer) :=
  if token ≠ .openParenthesis ∧ token ≠ .name then some (njsDeclined, lexer)
  else if token = .name then matchArrow lexer 0
  else do
    let fuel := lexer.size + 2
    let (token, lexer, offset) ← parserPeekToken lexer 0
    if token.Failed then return (njsDeclined, lexer)
    else
      let (result, lexer) ← matchLoop fuel lexer offset token false
      match result with
      | .error code => return (code, lexer)
      | .ok offset => matchArrow lexer offset

end Njs.Parsing
