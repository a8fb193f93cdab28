import Njs.Parsing.Expressions

/-!
# Expression trees

The trees over the operators of ECMAScript, and how they are written with the parentheses that
the precedence and the associativity of the operators require. Then what the parser makes of
them: the trees that it refuses, the depth of its calls, and the node that it builds.
-/

namespace Njs.Parsing

/-- The binary operators but for exponentiation. -/
inductive BinaryOperator
  | comma | or | and | bitOr | bitXor | bitAnd
  | equal | notEqual | strictEqual | strictNotEqual
  | less | lessOrEqual | greater | greaterOrEqual | in | instanceof
  | leftShift | rightShift | unsignedRightShift
  | plus | minus | times | divide | remainder

/-- The assignment operators. -/
inductive AssignmentOperator
  | plain | plus | minus | times | power | divide | remainder
  | leftShift | rightShift | unsignedRightShift | bitAnd | bitXor | bitOr

/-- The unary operators but for the increments. -/
inductive UnaryOperator
  | plus | minus | not | bitNot | typeof | void | delete
  deriving DecidableEq

/-- The operators in front of a variable or behind it. -/
inductive IncrementOperator
  | increment | decrement

/-- A name that is no keyword. -/
structure Identifier where
  name : String
  notKeyword : findKeyword name = none

/-- Expression trees. A `nakedPower` is written without the parentheses that its base needs, and
a naked assignment without those that its left-hand side needs. -/
inductive Expr
  | ident (x : Identifier)
  | number (value : Number)
  | property (object : Expr) (name : String)
  | index (object key : Expr)
  | post (op : IncrementOperator) (e : Expr)
  | pre (op : IncrementOperator) (e : Expr)
  | unary (op : UnaryOperator) (e : Expr)
  | power (base exponent : Expr)
  | nakedPower (op : UnaryOperator) (base exponent : Expr)
  | binary (op : BinaryOperator) (left right : Expr)
  | conditional (cond yes no : Expr)
  | assign (op : AssignmentOperator) (naked : Bool) (left right : Expr)

/-! ## How a tree is written -/

/-- A token that is not a word. -/
def sign (token : Token) : LexerToken := ⟨token, "", .finite 0⟩

/-- A word. -/
def word (text : String) : LexerToken := ⟨.name, text, .finite 0⟩

/-- The precedence of a binary operator. A larger number binds more tightly. -/
def BinaryOperator.precedence : BinaryOperator → ℕ
  | .comma => 0
  | .or => 3
  | .and => 4
  | .bitOr => 5
  | .bitXor => 6
  | .bitAnd => 7
  | .equal | .notEqual | .strictEqual | .strictNotEqual => 8
  | .less | .lessOrEqual | .greater | .greaterOrEqual | .in | .instanceof => 9
  | .leftShift | .rightShift | .unsignedRightShift => 10
  | .plus | .minus => 11
  | .times | .divide | .remainder => 12

/-- The lexeme of a binary operator. -/
def BinaryOperator.lexeme : BinaryOperator → LexerToken
  | .comma => sign .comma
  | .or => sign .logicalOr
  | .and => sign .logicalAnd
  | .bitOr => sign .bitwiseOr
  | .bitXor => sign .bitwiseXor
  | .bitAnd => sign .bitwiseAnd
  | .equal => sign .equal
  | .notEqual => sign .notEqual
  | .strictEqual => sign .strictEqual
  | .strictNotEqual => sign .strictNotEqual
  | .less => sign .less
  | .lessOrEqual => sign .lessOrEqual
  | .greater => sign .greater
  | .greaterOrEqual => sign .greaterOrEqual
  | .in => word "in"
  | .instanceof => word "instanceof"
  | .leftShift => sign .leftShift
  | .rightShift => sign .rightShift
  | .unsignedRightShift => sign .unsignedRightShift
  | .plus => sign .addition
  | .minus => sign .substraction
  | .times => sign .multiplication
  | .divide => sign .division
  | .remainder => sign .remainder

/-- The lexeme of an assignment operator. -/
def AssignmentOperator.lexeme : AssignmentOperator → LexerToken
  | .plain => sign .assignment
  | .plus => sign .additionAssignment
  | .minus => sign .substractionAssignment
  | .times => sign .multiplicationAssignment
  | .power => sign .exponentiationAssignment
  | .divide => sign .divisionAssignment
  | .remainder => sign .remainderAssignment
  | .leftShift => sign .leftShiftAssignment
  | .rightShift => sign .rightShiftAssignment
  | .unsignedRightShift => sign .unsignedRightShiftAssignment
  | .bitAnd => sign .bitwiseAndAssignment
  | .bitXor => sign .bitwiseXorAssignment
  | .bitOr => sign .bitwiseOrAssignment

/-- The lexeme of a unary operator. -/
def UnaryOperator.lexeme : UnaryOperator → LexerToken
  | .plus => sign .addition
  | .minus => sign .substraction
  | .not => sign .logicalNot
  | .bitNot => sign .bitwiseNot
  | .typeof => word "typeof"
  | .void => word "void"
  | .delete => word "delete"

/-- The lexeme of an increment or a decrement. -/
def IncrementOperator.lexeme : IncrementOperator → LexerToken
  | .increment => sign .increment
  | .decrement => sign .decrement

/-- The precedence of a tree. -/
def Expr.precedence : Expr → ℕ
  | .ident _ | .number _ => 17
  | .property _ _ | .index _ _ => 16
  | .post _ _ | .pre _ _ => 15
  | .unary _ _ => 14
  | .power _ _ | .nakedPower _ _ _ => 13
  | .binary op _ _ => op.precedence
  | .conditional _ _ _ => 2
  | .assign _ _ _ _ => 1

/-- Parentheses around something of precedence `p` where the precedence has to be `k` at
least. -/
def wrap (k p : ℕ) (ts : List LexerToken) : List LexerToken :=
  if p < k then sign .openParenthesis :: (ts ++ [sign .closeParenthesis]) else ts

/-- The precedence that the left-hand side of an assignment has to have. A naked one may be
anything that is parsed before the assignment is noticed. -/
def leftPrecedence (naked : Bool) : ℕ := if naked then 3 else 16

/-- The lexemes of a tree. The exponentiation and the assignments are right-associative, the
other binary operators left-associative. -/
def Expr.lexemes : Expr → List LexerToken
  | .ident x => [word x.name]
  | .number value => [⟨.number, "", value⟩]
  | .property object name => wrap 16 object.precedence object.lexemes ++ [sign .dot, word name]
  | .index object key =>
    wrap 16 object.precedence object.lexemes ++
      sign .openBracket :: (key.lexemes ++ [sign .closeBracket])
  | .post op e => wrap 16 e.precedence e.lexemes ++ [op.lexeme]
  | .pre op e => op.lexeme :: wrap 16 e.precedence e.lexemes
  | .unary op e => op.lexeme :: wrap 14 e.precedence e.lexemes
  | .power base exponent =>
    wrap 15 base.precedence base.lexemes ++
      sign .exponentiation :: wrap 13 exponent.precedence exponent.lexemes
  | .nakedPower op base exponent =>
    op.lexeme :: (wrap 14 base.precedence base.lexemes ++
      sign .exponentiation :: wrap 13 exponent.precedence exponent.lexemes)
  | .binary op left right =>
    wrap op.precedence left.precedence left.lexemes ++
      op.lexeme :: wrap (op.precedence + 1) right.precedence right.lexemes
  | .conditional cond yes no =>
    wrap 3 cond.precedence cond.lexemes ++ sign .conditional ::
      (wrap 1 yes.precedence yes.lexemes ++ sign .colon :: wrap 1 no.precedence no.lexemes)
  | .assign op naked left right =>
    wrap (leftPrecedence naked) left.precedence left.lexemes ++
      op.lexeme :: wrap 1 right.precedence right.lexemes

/-- The lexemes of a tree where the precedence has to be `k` at least. -/
def Expr.written (k : ℕ) (e : Expr) : List LexerToken := wrap k e.precedence e.lexemes

/-! ## What the parser makes of a tree -/

/-- The operation in the node of a binary operator. -/
def BinaryOperator.operation : BinaryOperator → Operation
  | .comma => .nop
  | .or => .testIfTrue
  | .and => .testIfFalse
  | .bitOr => .bitwiseOr
  | .bitXor => .bitwiseXor
  | .bitAnd => .bitwiseAnd
  | .equal => .equal
  | .notEqual => .notEqual
  | .strictEqual => .strictEqual
  | .strictNotEqual => .strictNotEqual
  | .less => .less
  | .lessOrEqual => .lessOrEqual
  | .greater => .greater
  | .greaterOrEqual => .greaterOrEqual
  | .in => .propertyIn
  | .instanceof => .instanceOf
  | .leftShift => .leftShift
  | .rightShift => .rightShift
  | .unsignedRightShift => .unsignedRightShift
  | .plus => .addition
  | .minus => .substraction
  | .times => .multiplication
  | .divide => .division
  | .remainder => .remainder

/-- The operation in the node of an assignment. -/
def AssignmentOperator.operation : AssignmentOperator → Operation
  | .plain => .move
  | .plus => .addition
  | .minus => .substraction
  | .times => .multiplication
  | .power => .exponentiation
  | .divide => .division
  | .remainder => .remainder
  | .leftShift => .leftShift
  | .rightShift => .rightShift
  | .unsignedRightShift => .unsignedRightShift
  | .bitAnd => .bitwiseAnd
  | .bitXor => .bitwiseXor
  | .bitOr => .bitwiseOr

/-- The token in the node of a unary operator. -/
def UnaryOperator.token : UnaryOperator → Token
  | .plus => .unaryPlus
  | .minus => .unaryNegation
  | .not => .logicalNot
  | .bitNot => .bitwiseNot
  | .typeof => .typeof
  | .void => .void
  | .delete => .delete

/-- The operation in the node of a unary operator. -/
def UnaryOperator.operation : UnaryOperator → Operation
  | .plus => .unaryPlus
  | .minus => .unaryNegation
  | .not => .logicalNot
  | .bitNot => .bitwiseNot
  | .typeof => .typeof
  | .void => .void
  | .delete => .delete

/-- The node of a unary operator. The sign of a number is part of the number, the deletion of a
property is a node of its own, and the name in a `typeof` is marked. -/
def UnaryOperator.apply : UnaryOperator → Node → Node
  | .plus, .number value => .number value
  | .minus, .number value => .number (negate value)
  | .delete, .node .property _ left right => .node .propertyDelete .propertyDelete left right
  | .typeof, .reference .name name _ =>
    .node .typeof .typeof (.reference .name name .typeof) .null
  | op, node => .node op.token op.operation node .null

/-- The node of an operator in front. -/
def IncrementOperator.pre : IncrementOperator → Node → Node
  | .increment, node => .node .increment .increment node .null
  | .decrement, node => .node .decrement .decrement node .null

/-- The node of an operator behind. -/
def IncrementOperator.post : IncrementOperator → Node → Node
  | .increment, node => .node .postIncrement .postIncrement node .null
  | .decrement, node => .node .postDecrement .postDecrement node .null

section

variable (els : Elsewhere)

/-- The tree may stand on the left-hand side of an assignment. -/
def Expr.Lvalue : Expr → Prop
  | .ident x => els.external x.name = false
  | .property _ _ | .index _ _ => True
  | _ => False

/-- The tree is a variable that is not an external object of the machine. -/
def Expr.Unqualified : Expr → Prop
  | .ident x => els.external x.name = false
  | _ => False

/-- The parser has nothing to refuse in the tree. -/
def Expr.Valid : Expr → Prop
  | .ident _ | .number _ => True
  | .property object _ => object.Valid
  | .index object key => object.Valid ∧ key.Valid
  | .post _ e | .pre _ e => e.Valid ∧ e.Lvalue els
  | .unary op e => e.Valid ∧ ¬(op = .delete ∧ e.Unqualified els)
  | .power base exponent => base.Valid ∧ exponent.Valid
  | .nakedPower _ _ _ => False
  | .binary _ left right => left.Valid ∧ right.Valid
  | .conditional cond yes no => cond.Valid ∧ yes.Valid ∧ no.Valid
  | .assign _ _ left right => left.Valid ∧ left.Lvalue els ∧ right.Valid

/-- The node of a tree. -/
def Expr.node : Expr → Node
  | .ident x => reference els x.name
  | .number value => .number value
  | .property object name => .node .property .propertyGet object.node (.string name)
  | .index object key => .node .property .propertyGet object.node key.node
  | .post op e => op.post e.node
  | .pre op e => op.pre e.node
  | .unary op e => op.apply e.node
  | .power base exponent => .node .exponentiation .exponentiation base.node exponent.node
  | .nakedPower _ _ _ => .null
  | .binary op left right =>
    .node op.lexeme.resolve.token op.operation left.node right.node
  | .conditional cond yes no =>
    .node .conditional .stop cond.node (.node .branching .stop yes.node no.node)
  | .assign op _ left right =>
    .node op.lexeme.token op.operation left.node right.node

end

/-- How often the parser enters on the way from the function for the precedence `k` to the one
for `p`. The assignments enter. -/
def descent (k p : ℕ) : ℕ := if k ≤ 1 ∧ 2 ≤ p then 1 else 0

/-- How deep `njs_parser_enter` nests for something of precedence `p` and depth `own`, where the
precedence has to be `k` at least. The calls enter, and so do the parentheses. -/
def wrapDepth (k p own : ℕ) : ℕ :=
  if p < k then descent k 16 + 1 + (descent 0 p + own) else descent k p + own

/-- How deep `njs_parser_enter` nests for a tree, from the function for its precedence on. -/
def Expr.ownDepth : Expr → ℕ
  | .ident _ | .number _ => 1
  | .property object _ => wrapDepth 16 object.precedence object.ownDepth
  | .index object key =>
    max (wrapDepth 16 object.precedence object.ownDepth) (wrapDepth 0 key.precedence key.ownDepth)
  | .post _ e | .pre _ e => wrapDepth 16 e.precedence e.ownDepth
  | .unary _ e => 1 + wrapDepth 14 e.precedence e.ownDepth
  | .power base exponent =>
    max (wrapDepth 15 base.precedence base.ownDepth)
      (1 + wrapDepth 13 exponent.precedence exponent.ownDepth)
  | .nakedPower _ base _ => 1 + wrapDepth 14 base.precedence base.ownDepth
  | .binary op left right =>
    max (wrapDepth op.precedence left.precedence left.ownDepth)
      (wrapDepth (op.precedence + 1) right.precedence right.ownDepth)
  | .conditional cond yes no =>
    max (wrapDepth 3 cond.precedence cond.ownDepth)
      (max (wrapDepth 1 yes.precedence yes.ownDepth) (wrapDepth 1 no.precedence no.ownDepth))
  | .assign _ naked left right =>
    max (1 + wrapDepth (leftPrecedence naked) left.precedence left.ownDepth)
      (1 + wrapDepth 1 right.precedence right.ownDepth)

/-- How deep `njs_parser_enter` nests for a tree where the precedence has to be `k` at least. -/
def Expr.depth (k : ℕ) (e : Expr) : ℕ := wrapDepth k e.precedence e.ownDepth

end Njs.Parsing
