import Njs.Parsing.Parameters

/-!
# Expressions

`njs_parser_expression.c`, and of `njs_parser_terminal.c` the parentheses, the numbers and the
variables. The parsers of the other terminals, of calls and of arrow functions are a parameter.
Only `njs_parser_enter` limits the depth of the calls; the fuel of the functions is as deep as the
calls and the loops.
-/

namespace Njs.Parsing

/-- `njs_vmcode_operation_t`, the values that the parser of the expressions uses. A new node has
`NJS_VMCODE_STOP`. -/
inductive Operation
  | stop
  | move | propertyGet | increment | postIncrement | decrement | postDecrement
  | less | greater | lessOrEqual | greaterOrEqual | addition | equal | notEqual
  | substraction | multiplication | exponentiation | division | remainder
  | bitwiseAnd | bitwiseOr | bitwiseXor | leftShift | rightShift | unsignedRightShift
  | propertyIn | propertyDelete | strictEqual | strictNotEqual | testIfTrue | testIfFalse
  | unaryPlus | unaryNegation | bitwiseNot | logicalNot
  | instanceOf | typeof | void | delete
  | nop
  deriving DecidableEq

/-- `njs_reference_type_t`. -/
inductive ReferenceType
  | declaration | reference | typeof
  deriving DecidableEq

/-- `njs_parser_node_t`, but for `dest` and the line, or `NULL`. -/
inductive Node
  | null
  | reference (token : Token) (name : String) (type : ReferenceType)
  | number (value : Number)
  | string (text : String)
  | node (token : Token) (operation : Operation) (left right : Node)
  deriving DecidableEq

/-- `node->token`. -/
def Node.token : Node → Token
  | .null => .illegal
  | .reference token _ _ => token
  | .number _ => .number
  | .string _ => .string
  | .node token _ _ _ => token

/-- `njs_parser_is_lvalue`. -/
def Node.IsLvalue (node : Node) : Prop := node.token = .name ∨ node.token = .property

instance (node : Node) : Decidable node.IsLvalue := inferInstanceAs (Decidable (_ ∨ _))

/-- `-num` of a double. Both zeros are `0` in the model. -/
def negate : Number → Number
  | .nan => .nan
  | .posInfinity => .negInfinity
  | .negInfinity => .posInfinity
  | .finite q => .finite (-q)

/-- `njs_parser_t` with the fields that the parser of the expressions uses. -/
structure TreeParser extends Parser where
  node : Node
  count : ℕ

/-- A parser is called with the current token and returns the next one. -/
abbrev Parse := TreeParser → Token → Option (Token × TreeParser)

/-- What is not embedded: `njs_external_lookup`, and the parsers of arrow functions, of the other
terminals, of `new` and of calls. -/
structure Elsewhere where
  external : String → Bool
  arrowExpression : Parse
  terminal : Parse
  newExpression : Parse
  call : Parse

/-- `njs_parser_token`. -/
def TreeParser.next (parser : TreeParser) : Option (Token × TreeParser) := do
  let (token, lexer) ← parserToken parser.lexer
  return (token, { parser with lexer })

/-- `njs_parser_match`. -/
def TreeParser.match (parser : TreeParser) (token expected : Token) :
    Option (Token × TreeParser) :=
  if token = expected then parser.next
  else
    let (token, unexpected) := parser.toParser.unexpectedToken token
    some (token, { parser with error := unexpected.error })

/-- An error with its message, and `NJS_TOKEN_ILLEGAL`. -/
def TreeParser.illegal (parser : TreeParser) (message : String) : Token × TreeParser :=
  (.illegal, { parser with error := some message })

/-- A call between `njs_parser_enter` and `njs_parser_leave`. -/
def TreeParser.entered (parser : TreeParser) (call : TreeParser → Option (Token × TreeParser)) :
    Option (Token × TreeParser) :=
  if parser.count > 4096 then
    some (.error, { parser with
      count := parser.count + 1, error := some "Maximum call stack size exceeded" })
  else do
    let (token, parser) ← call { parser with count := parser.count + 1 }
    return (token, { parser with count := parser.count - 1 })

/-- Goes on with the next token, unless it is an error. -/
def proceed (result : Option (Token × TreeParser)) (rest : TreeParser → Token →
    Option (Token × TreeParser)) : Option (Token × TreeParser) := do
  let (token, parser) ← result
  if token.Failed then return (token, parser) else rest parser token

/-! ## The descriptors -/

/-- The static variables of type `njs_parser_expression_t`. -/
inductive Expression
  | factor | addition | bitwiseShift | relational | equality | bitwiseAnd | bitwiseXor | bitwiseOr
  | logicalAnd | logicalOr | comma
  deriving DecidableEq

/-- The field `op` of a descriptor. -/
def Expression.op : Expression → List (Token × Operation)
  | .factor =>
    [(.multiplication, .multiplication), (.division, .division), (.remainder, .remainder)]
  | .addition => [(.addition, .addition), (.substraction, .substraction)]
  | .bitwiseShift =>
    [(.leftShift, .leftShift), (.rightShift, .rightShift),
      (.unsignedRightShift, .unsignedRightShift)]
  | .relational =>
    [(.less, .less), (.lessOrEqual, .lessOrEqual), (.greater, .greater),
      (.greaterOrEqual, .greaterOrEqual), (.in, .propertyIn), (.instanceof, .instanceOf)]
  | .equality =>
    [(.equal, .equal), (.notEqual, .notEqual), (.strictEqual, .strictEqual),
      (.strictNotEqual, .strictNotEqual)]
  | .bitwiseAnd => [(.bitwiseAnd, .bitwiseAnd)]
  | .bitwiseXor => [(.bitwiseXor, .bitwiseXor)]
  | .bitwiseOr => [(.bitwiseOr, .bitwiseOr)]
  | .logicalAnd => [(.logicalAnd, .testIfFalse)]
  | .logicalOr => [(.logicalOr, .testIfTrue)]
  | .comma => [(.comma, .nop)]

/-- The fields `next` and `expression` of a descriptor: the function, and for
`njs_parser_binary_expression` the descriptor that it is called with. -/
inductive Next
  | any
  | binary (expr : Expression)
  | exponential
  deriving DecidableEq

/-- The fields `next` and `expression` of a descriptor. -/
def Expression.next : Expression → Next
  | .factor => .exponential
  | .addition => .binary .factor
  | .bitwiseShift => .binary .addition
  | .relational => .binary .bitwiseShift
  | .equality => .binary .relational
  | .bitwiseAnd => .binary .equality
  | .bitwiseXor => .binary .bitwiseAnd
  | .bitwiseOr => .binary .bitwiseXor
  | .logicalAnd => .binary .bitwiseOr
  | .logicalOr => .binary .logicalAnd
  | .comma => .any

/-- The operation of a descriptor for a token. -/
def Expression.operation (expr : Expression) (token : Token) : Option Operation :=
  expr.op.lookup token

/-- The operation of `njs_parser_assignment_expression` for a token. -/
def assignmentOperation : Token → Option Operation
  | .assignment => some .move
  | .additionAssignment => some .addition
  | .substractionAssignment => some .substraction
  | .multiplicationAssignment => some .multiplication
  | .exponentiationAssignment => some .exponentiation
  | .divisionAssignment => some .division
  | .remainderAssignment => some .remainder
  | .leftShiftAssignment => some .leftShift
  | .rightShiftAssignment => some .rightShift
  | .unsignedRightShiftAssignment => some .unsignedRightShift
  | .bitwiseAndAssignment => some .bitwiseAnd
  | .bitwiseXorAssignment => some .bitwiseXor
  | .bitwiseOrAssignment => some .bitwiseOr
  | _ => none

/-- The token and the operation of `njs_parser_unary_expression` for a token. -/
def unaryOperation : Token → Option (Token × Operation)
  | .addition => some (.unaryPlus, .unaryPlus)
  | .substraction => some (.unaryNegation, .unaryNegation)
  | .logicalNot => some (.logicalNot, .logicalNot)
  | .bitwiseNot => some (.bitwiseNot, .bitwiseNot)
  | .typeof => some (.typeof, .typeof)
  | .void => some (.void, .void)
  | .delete => some (.delete, .delete)
  | _ => none

/-- The operation of `njs_parser_inc_dec_expression` for a token. -/
def incDecOperation : Token → Option Operation
  | .increment => some .increment
  | .decrement => some .decrement
  | _ => none

/-- The token and the operation of `njs_parser_post_inc_dec_expression` for a token. -/
def postOperation : Token → Option (Token × Operation)
  | .increment => some (.postIncrement, .postIncrement)
  | .decrement => some (.postDecrement, .postDecrement)
  | _ => none

/-! ## Nodes -/

/-- The refusal of a left-hand side in `njs_parser_assignment_expression`. -/
def TreeParser.invalidAssignment (parser : TreeParser) : Token × TreeParser :=
  if parser.node.token = .eval then
    parser.illegal "Identifier \"eval\" is forbidden as left-hand in assignment"
  else if parser.node.token = .arguments then
    parser.illegal "Identifier \"arguments\" is forbidden as left-hand in assignment"
  else parser.illegal "Invalid left-hand side in assignment"

/-- The end of `njs_parser_unary_expression`, where `next` is the token behind the operand. -/
def unaryNode (parser : TreeParser) (token : Token) (operation : Operation) (next : Token) :
    Token × TreeParser :=
  match token, parser.node with
  | .unaryPlus, .number _ => (next, parser)
  | .unaryNegation, .number num => (next, { parser with node := .number (negate num) })
  | .delete, .node .property _ left right =>
    (next, { parser with node := .node .propertyDelete .propertyDelete left right })
  | .delete, .reference .name _ _ => parser.illegal "Delete of an unqualified identifier"
  | .typeof, .reference .name name _ =>
    (next, { parser with node := .node token operation (.reference .name name .typeof) .null })
  | _, node => (next, { parser with node := .node token operation node .null })

/-- `njs_parser_reference` of a name. -/
def reference (els : Elsewhere) (name : String) : Node :=
  if els.external name then .reference .external name .declaration
  else .reference .name name .reference

/-! ## The functions -/

section

variable (els : Elsewhere)

mutual

/-- `njs_parser_binary_expression`. -/
def binaryExpression : ℕ → Expression → Parse
  | 0, _, _, _ => none
  | fuel + 1, expr, parser, token =>
    proceed (nextExpression fuel expr.next parser token) fun parser token =>
      binaryLoop fuel expr parser token

/-- The loop of `njs_parser_binary_expression`. -/
def binaryLoop : ℕ → Expression → Parse
  | 0, _, _, _ => none
  | fuel + 1, expr, parser, token =>
    match expr.operation token with
    | none => some (token, parser)
    | some operation =>
      proceed parser.next fun parser' token' =>
      proceed (nextExpression fuel expr.next parser' token') fun parser'' token'' =>
        binaryLoop fuel expr
          { parser'' with node := .node token operation parser.node parser''.node } token''

/-- `expr->next(vm, parser, expr->expression, token)`. `njs_parser_any_expression` is
`njs_parser_assignment_expression`. -/
def nextExpression : ℕ → Next → Parse
  | 0, _, _, _ => none
  | fuel + 1, .any, parser, token => assignmentExpression fuel parser token
  | fuel + 1, .binary expr, parser, token => binaryExpression fuel expr parser token
  | fuel + 1, .exponential, parser, token => exponentialExpression fuel parser token

/-- `njs_parser_assignment_expression`. -/
def assignmentExpression : ℕ → Parse
  | 0, _, _ => none
  | fuel + 1, parser, token =>
    proceed (parser.entered fun parser => conditionalExpression fuel parser token)
      fun parser token => assignmentLoop fuel parser token

/-- The loop of `njs_parser_assignment_expression`. -/
def assignmentLoop : ℕ → Parse
  | 0, _, _ => none
  | fuel + 1, parser, token =>
    match assignmentOperation token with
    | none => some (token, parser)
    | some operation =>
      if ¬parser.node.IsLvalue then some parser.invalidAssignment
      else
        proceed parser.next fun parser' token' =>
        proceed (parser'.entered fun parser' => assignmentExpression fuel parser' token')
          fun parser'' token'' =>
            assignmentLoop fuel
              { parser'' with node := .node token operation parser.node parser''.node } token''

/-- `njs_parser_conditional_expression`. -/
def conditionalExpression : ℕ → Parse
  | 0, _, _ => none
  | fuel + 1, parser, token =>
    proceed (binaryExpression fuel .logicalOr parser token) fun parser token =>
      conditionalLoop fuel parser token

/-- The loop of `njs_parser_conditional_expression`. -/
def conditionalLoop : ℕ → Parse
  | 0, _, _ => none
  | fuel + 1, parser, token =>
    if token ≠ .conditional then some (token, parser)
    else
      proceed parser.next fun parser₁ token₁ =>
      proceed (assignmentExpression fuel parser₁ token₁) fun parser₂ token₂ =>
        if token₂ ≠ .colon then some (.illegal, parser₂)
        else
          proceed parser₂.next fun parser₃ token₃ =>
          proceed (assignmentExpression fuel parser₃ token₃) fun parser₄ token₄ =>
            conditionalLoop fuel
              { parser₄ with
                node := .node .conditional .stop parser.node
                  (.node .branching .stop parser₂.node parser₄.node) } token₄

/-- `njs_parser_exponential_expression`. -/
def exponentialExpression : ℕ → Parse
  | 0, _, _ => none
  | fuel + 1, parser, token =>
    proceed (unaryExpression fuel parser token) fun parser token =>
      if token = .exponentiation then
        proceed parser.next fun parser' token' =>
        proceed (parser'.entered fun parser' => exponentialExpression fuel parser' token')
          fun parser'' token'' =>
            some (token'', { parser'' with
              node := .node .exponentiation .exponentiation parser.node parser''.node })
      else some (token, parser)

/-- `njs_parser_unary_expression`. -/
def unaryExpression : ℕ → Parse
  | 0, _, _ => none
  | fuel + 1, parser, token =>
    match unaryOperation token with
    | none => incDecExpression fuel parser token
    | some (token, operation) =>
      proceed parser.next fun parser next =>
      proceed (parser.entered fun parser => unaryExpression fuel parser next)
        fun parser next =>
          if next = .exponentiation then
            some (parser.illegal ("Either left-hand side or entire " ++
              "exponentiation must be parenthesized"))
          else some (unaryNode parser token operation next)

/-- `njs_parser_inc_dec_expression`. -/
def incDecExpression : ℕ → Parse
  | 0, _, _ => none
  | fuel + 1, parser, token =>
    match incDecOperation token with
    | none => postIncDecExpression fuel parser token
    | some operation =>
      proceed parser.next fun parser next =>
      proceed (callExpression fuel parser next) fun parser next =>
        if ¬parser.node.IsLvalue then
          some (parser.illegal "Invalid left-hand side in prefix operation")
        else some (next, { parser with node := .node token operation parser.node .null })

/-- `njs_parser_post_inc_dec_expression`. At the start of a line the operator is put back, as if
there were a semicolon in front of it. -/
def postIncDecExpression : ℕ → Parse
  | 0, _, _ => none
  | fuel + 1, parser, token =>
    proceed (callExpression fuel parser token) fun parser token =>
      match postOperation token with
      | none => some (token, parser)
      | some (token, operation) =>
        if parser.lexer.prevToken = .lineEnd then
          some (.semicolon, { parser with lexer := parser.lexer.rollback })
        else if ¬parser.node.IsLvalue then
          some (parser.illegal "Invalid left-hand side in postfix operation")
        else TreeParser.next { parser with node := .node token operation parser.node .null }

/-- `njs_parser_call_expression`. -/
def callExpression : ℕ → Parse
  | 0, _, _ => none
  | fuel + 1, parser, token =>
    proceed (parser.entered fun parser =>
        if token = .new then els.newExpression parser token else terminal fuel parser token)
      fun parser token => callLoop fuel parser token

/-- The loop of `njs_parser_call_expression`. -/
def callLoop : ℕ → Parse
  | 0, _, _ => none
  | fuel + 1, parser, token =>
    proceed (propertyExpression fuel parser token) fun parser token =>
      if token ≠ .openParenthesis ∧ token ≠ .grave then some (token, parser)
      else
        proceed (parser.entered fun parser => els.call parser token) fun parser token =>
          callLoop fuel parser token

/-- `njs_parser_property_expression`, which is a loop. -/
def propertyExpression : ℕ → Parse
  | 0, _, _ => none
  | fuel + 1, parser, token =>
    if token = .dot then do
      let (token, parser') ← parser.next
      if token ≠ .name ∧ ¬parser'.lexer.keyword then return (.illegal, parser')
      else
        proceed parser'.next fun parser'' token =>
          propertyExpression fuel { parser'' with
            node := .node .property .propertyGet parser.node (.string parser'.lexer.text) } token
    else if token = .openBracket then
      proceed parser.next fun parser' token =>
      proceed (propertyBrackets fuel parser' token) fun parser'' token =>
        propertyExpression fuel { parser'' with
          node := .node .property .propertyGet parser.node parser''.node } token
    else some (token, parser)

/-- `njs_parser_property_brackets`. -/
def propertyBrackets : ℕ → Parse
  | 0, _, _ => none
  | fuel + 1, parser, token =>
    proceed (binaryExpression fuel .comma parser token) fun parser token =>
      if token ≠ .closeBracket then some (.error, parser) else parser.next

/-- `njs_parser_terminal`. -/
def terminal : ℕ → Parse
  | 0, _, _ => none
  | fuel + 1, parser, token => do
    let (ret, lexer) ← matchArrowExpression parser.lexer token
    let parser := { parser with lexer }
    if ret = njsOk then els.arrowExpression parser token
    else if token = .openParenthesis then
      proceed parser.next fun parser token =>
      proceed (binaryExpression fuel .comma parser token) fun parser token =>
        parser.match token .closeParenthesis
    else if token = .number then
      TreeParser.next { parser with node := .number parser.lexer.number }
    else if token = .name then
      TreeParser.next { parser with node := reference els parser.lexer.text }
    else els.terminal parser token

end

/-- `njs_parser_expression`. -/
def parserExpression (fuel : ℕ) (parser : TreeParser) (token : Token) :
    Option (Token × TreeParser) :=
  binaryExpression els fuel .comma parser token

end

end Njs.Parsing
