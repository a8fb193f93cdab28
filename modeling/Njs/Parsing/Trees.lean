import Njs.Parsing.RoundTrip

/-!
# The tree of a node

What is written of a tree is parsed to a node that stands for the tree, but for the signs of the
numbers. The parser refuses a tree where it has to, the deletion of a variable, and what is
nested too deeply.
-/

namespace Njs.Parsing

open Njs.Lib

/-- The operator with one operand that a token stands for in a node. -/
def Token.unaryTree : Token → Option (Expr → Expr)
  | .unaryPlus => some (.unary .plus)
  | .unaryNegation => some (.unary .minus)
  | .logicalNot => some (.unary .not)
  | .bitwiseNot => some (.unary .bitNot)
  | .typeof => some (.unary .typeof)
  | .void => some (.unary .void)
  | .delete => some (.unary .delete)
  | .increment => some (.pre .increment)
  | .decrement => some (.pre .decrement)
  | .postIncrement => some (.post .increment)
  | .postDecrement => some (.post .decrement)
  | _ => none

/-- The operator with two operands that a token stands for in a node. -/
def Token.binaryTree : Token → Option (Expr → Expr → Expr)
  | .comma => some (.binary .comma)
  | .logicalOr => some (.binary .or)
  | .logicalAnd => some (.binary .and)
  | .bitwiseOr => some (.binary .bitOr)
  | .bitwiseXor => some (.binary .bitXor)
  | .bitwiseAnd => some (.binary .bitAnd)
  | .equal => some (.binary .equal)
  | .notEqual => some (.binary .notEqual)
  | .strictEqual => some (.binary .strictEqual)
  | .strictNotEqual => some (.binary .strictNotEqual)
  | .less => some (.binary .less)
  | .lessOrEqual => some (.binary .lessOrEqual)
  | .greater => some (.binary .greater)
  | .greaterOrEqual => some (.binary .greaterOrEqual)
  | .in => some (.binary .in)
  | .instanceof => some (.binary .instanceof)
  | .leftShift => some (.binary .leftShift)
  | .rightShift => some (.binary .rightShift)
  | .unsignedRightShift => some (.binary .unsignedRightShift)
  | .addition => some (.binary .plus)
  | .substraction => some (.binary .minus)
  | .multiplication => some (.binary .times)
  | .division => some (.binary .divide)
  | .remainder => some (.binary .remainder)
  | .exponentiation => some .power
  | .assignment => some (.assign .plain false)
  | .additionAssignment => some (.assign .plus false)
  | .substractionAssignment => some (.assign .minus false)
  | .multiplicationAssignment => some (.assign .times false)
  | .exponentiationAssignment => some (.assign .power false)
  | .divisionAssignment => some (.assign .divide false)
  | .remainderAssignment => some (.assign .remainder false)
  | .leftShiftAssignment => some (.assign .leftShift false)
  | .rightShiftAssignment => some (.assign .rightShift false)
  | .unsignedRightShiftAssignment => some (.assign .unsignedRightShift false)
  | .bitwiseAndAssignment => some (.assign .bitAnd false)
  | .bitwiseXorAssignment => some (.assign .bitXor false)
  | .bitwiseOrAssignment => some (.assign .bitOr false)
  | _ => none

/-- The tree that a node stands for. -/
def Node.tree : Node → Option Expr
  | .null => none
  | .string _ => none
  | .number value => some (.number value)
  | .reference _ name _ =>
    if h : findKeyword name = none then some (.ident ⟨name, h⟩) else none
  | .node .property _ object (.string name) => object.tree.map (.property · name)
  | .node .property _ object key =>
    object.tree.bind fun object => key.tree.map (.index object ·)
  | .node .propertyDelete _ object (.string name) =>
    object.tree.map fun object => .unary .delete (.property object name)
  | .node .propertyDelete _ object key =>
    object.tree.bind fun object => key.tree.map fun key => .unary .delete (.index object key)
  | .node .conditional _ cond (.node _ _ yes no) =>
    cond.tree.bind fun cond => yes.tree.bind fun yes => no.tree.map (.conditional cond yes ·)
  | .node token _ left right =>
    match token.unaryTree with
    | some op => left.tree.map op
    | none => token.binaryTree.bind fun op =>
      left.tree.bind fun left => right.tree.map (op left ·)

/-- A sign in front of a tree. -/
def Expr.signed : UnaryOperator → Expr → Expr
  | .plus, .number value => .number value
  | .minus, .number value => .number (negate value)
  | op, e => .unary op e

/-- The tree with the signs of the numbers as parts of the numbers. -/
def Expr.fold : Expr → Expr
  | .ident x => .ident x
  | .number value => .number value
  | .property object name => .property object.fold name
  | .index object key => .index object.fold key.fold
  | .post op e => .post op e.fold
  | .pre op e => .pre op e.fold
  | .unary op e => .signed op e.fold
  | .power base exponent => .power base.fold exponent.fold
  | .nakedPower op base exponent => .nakedPower op base.fold exponent.fold
  | .binary op left right => .binary op left.fold right.fold
  | .conditional cond yes no => .conditional cond.fold yes.fold no.fold
  | .assign op _ left right => .assign op false left.fold right.fold

variable {els : Elsewhere} {e : Expr} {node left right : Node} {token : Token}
  {operation : Operation}

theorem tree_unary {op : Expr → Expr} (h : token.unaryTree = some op) :
    (Node.node token operation left right).tree = left.tree.map op := by
  cases token <;> first | (simp [Token.unaryTree] at h; done) | simp [Node.tree, h]

theorem tree_binary {op : Expr → Expr → Expr} {l r : Expr} (h : token.binaryTree = some op)
    (hleft : left.tree = some l) (hright : right.tree = some r) :
    (Node.node token operation left right).tree = some (op l r) := by
  have hunary : token.unaryTree = none := by
    revert h
    cases token <;> simp [Token.binaryTree, Token.unaryTree]
  revert h
  cases token <;> first | (simp [Token.binaryTree]; done) | simp_all [Node.tree]

/-- A key is no name. -/
theorem tree_index {o k : Expr} (hleft : left.tree = some o) (hright : right.tree = some k) :
    (Node.node .property operation left right).tree = some (.index o k) ∧
      (Node.node .propertyDelete operation left right).tree =
        some (.unary .delete (.index o k)) := by
  cases right with
  | null => simp [Node.tree] at hright
  | string text => simp [Node.tree] at hright
  | reference token name type => simpa [Node.tree, hleft] using hright
  | number value => simpa [Node.tree, hleft] using hright
  | node token operation' left' right' => simp [Node.tree, hleft, hright]

theorem unaryTree_ne {op : Expr → Expr} (h : token.unaryTree = some op) (e : Expr)
    (value : Number) : op e ≠ .number value := by
  cases token <;> simp [Token.unaryTree] at h <;> subst h <;> simp

theorem binaryTree_ne {op : Expr → Expr → Expr} (h : token.binaryTree = some op) (l r : Expr)
    (value : Number) : op l r ≠ .number value := by
  cases token <;> simp [Token.binaryTree] at h <;> subst h <;> simp

/-- Only a number stands for a number. -/
theorem tree_number {value : Number} (h : node.tree = some (.number value)) :
    node = .number value := by
  unfold Node.tree at h
  split at h
  · cases h
  · cases h
  · simpa using h
  · split_ifs at h
    simp at h
  · simp at h
  · simp [Option.bind_eq_some_iff] at h
  · simp at h
  · simp [Option.bind_eq_some_iff] at h
  · simp [Option.bind_eq_some_iff] at h
  · split at h
    · next op hop =>
      obtain ⟨e, -, he⟩ := Option.map_eq_some_iff.mp h
      exact absurd he (unaryTree_ne hop e value)
    · obtain ⟨op, hop, h⟩ := Option.bind_eq_some_iff.mp h
      obtain ⟨l, -, h⟩ := Option.bind_eq_some_iff.mp h
      obtain ⟨r, -, hr⟩ := Option.map_eq_some_iff.mp h
      exact absurd hr (binaryTree_ne hop l r value)

theorem tree_propertyDelete (operation operation' : Operation) (left right : Node) :
    (Node.node .propertyDelete operation left right).tree =
      (Node.node .property operation' left right).tree.map (.unary .delete) := by
  cases right <;> simp [Node.tree, Option.map_bind, Function.comp_def]

theorem signed_of_ne {op : UnaryOperator} (h : ∀ value, e ≠ .number value) :
    e.signed op = .unary op e := by
  unfold Expr.signed
  split
  · next value => exact absurd rfl (h value)
  · next value => exact absurd rfl (h value)
  · rfl

/-- The node of a unary operator stands for the tree with the operator in front. -/
theorem tree_apply {op : UnaryOperator} (h : node.tree = some e)
    (hop : ¬(op = .delete ∧ node.IsUnqualified)) :
    (op.apply node).tree = some (.signed op e) := by
  have hunary : op.token.unaryTree = some (.unary op) := by cases op <;> rfl
  have hother : (Node.node op.token op.operation node .null).tree = some (.unary op e) := by
    rw [tree_unary hunary, h]
    rfl
  by_cases hnumber : ∃ value, e = .number value
  · obtain ⟨value, rfl⟩ := hnumber
    obtain rfl := tree_number h
    cases op with
    | plus => rfl
    | minus => rfl
    | _ => exact hother
  · have hne : ∀ value, e ≠ .number value := fun value heq => hnumber ⟨value, heq⟩
    rw [signed_of_ne hne]
    unfold UnaryOperator.apply
    split
    · next value => exact absurd (Option.some.inj h).symm (hne value)
    · next value => exact absurd (Option.some.inj h).symm (hne value)
    · rw [tree_propertyDelete, h]
      rfl
    · have htypeof : (Node.reference .name _ .typeof).tree = some e := h
      apply (tree_unary hunary).trans
      rw [htypeof]
      rfl
    · exact hother

/-- The node of a tree stands for the tree. -/
theorem Expr.node_tree (e : Expr) (h : e.Valid els) : (e.node els).tree = some e.fold := by
  induction e with
  | ident x =>
    rw [Expr.node, reference]
    split_ifs <;> simp [Node.tree, x.notKeyword, Expr.fold]
  | number value => rfl
  | property object name ih => simp [Expr.node, Node.tree, ih h, Expr.fold]
  | index object key ih ihkey => exact (tree_index (ih h.1) (ihkey h.2)).1
  | post op e ih =>
    cases op <;> simp [Expr.node, IncrementOperator.post, Node.tree, Token.unaryTree, ih h.1,
      Expr.fold]
  | pre op e ih =>
    cases op <;> simp [Expr.node, IncrementOperator.pre, Node.tree, Token.unaryTree, ih h.1,
      Expr.fold]
  | unary op e ih =>
    apply tree_apply (ih h.1)
    rw [e.isUnqualified_iff]
    exact h.2
  | power base exponent ih ihexponent => exact tree_binary rfl (ih h.1) (ihexponent h.2)
  | nakedPower op base exponent _ _ => exact h.elim
  | binary op left right ihleft ihright =>
    have hop : op.lexeme.resolve.token.binaryTree = some (.binary op) := by cases op <;> rfl
    exact tree_binary hop (ihleft h.1) (ihright h.2)
  | conditional cond yes no ihcond ihyes ihno =>
    simp [Expr.node, Node.tree, ihcond h.1, ihyes h.2.1, ihno h.2.2, Expr.fold]
  | assign op naked left right ihleft ihright =>
    have hop : op.lexeme.token.binaryTree = some (.assign op false) := by cases op <;> rfl
    exact tree_binary hop (ihleft h.1) (ihright h.2.2)

/-! ## The expression of a script -/

theorem keywords_clean {keyword : Keyword} (h : keyword ∈ keywords) :
    keyword.token ≠ .lineEnd ∧ keyword.token ≠ .arrow ∧ ¬keyword.token.Failed := by
  have hall : ∀ token ∈ keywords.map Keyword.token,
      token ≠ .lineEnd ∧ token ≠ .arrow ∧ ¬token.Failed := by decide
  exact hall _ (List.mem_map_of_mem h)

theorem word_clean (text : String) : (word text).Clean := by
  cases hfind : findKeyword text with
  | none =>
    have htoken : (word text).resolve.token = .name := by
      rw [word_resolve hfind]
      rfl
    constructor
    · simp [htoken]
    · simp [htoken]
    · rw [htoken]
      decide
  | some keyword =>
    obtain ⟨hline, harrow, hlegal⟩ := keywords_clean (List.mem_of_find?_eq_some hfind)
    have htoken : (word text).resolve.token = keyword.token := by
      simp [LexerToken.resolve, lexerKeyword, word, hfind]
    constructor
    · rwa [htoken]
    · rwa [htoken]
    · rwa [htoken]

theorem sign_clean (h : token ≠ .name) (hclean : token ≠ .lineEnd ∧ token ≠ .arrow ∧
    ¬token.Failed) : (sign token).Clean := by
  have htoken : (sign token).resolve = sign token := resolve_of_ne h
  constructor
  · rw [htoken]
    exact hclean.1
  · rw [htoken]
    exact hclean.2.1
  · rw [htoken]
    exact hclean.2.2

theorem BinaryOperator.lexeme_clean (op : BinaryOperator) : op.lexeme.Clean := by
  cases op <;> first | exact word_clean _ | exact sign_clean (by decide) (by decide)

theorem AssignmentOperator.lexeme_clean (op : AssignmentOperator) : op.lexeme.Clean := by
  cases op <;> exact sign_clean (by decide) (by decide)

theorem UnaryOperator.lexeme_clean (op : UnaryOperator) : op.lexeme.Clean := by
  cases op <;> first | exact word_clean _ | exact sign_clean (by decide) (by decide)

theorem IncrementOperator.lexeme_clean (op : IncrementOperator) : op.lexeme.Clean := by
  cases op <;> exact sign_clean (by decide) (by decide)

/-- Every token of the sequence is clean. -/
def AllClean (ts : List LexerToken) : Prop := ∀ lt ∈ ts, lt.Clean

theorem allClean_cons {lt : LexerToken} {ts : List LexerToken} :
    AllClean (lt :: ts) ↔ lt.Clean ∧ AllClean ts := List.forall_mem_cons

theorem allClean_append {ts us : List LexerToken} :
    AllClean (ts ++ us) ↔ AllClean ts ∧ AllClean us := List.forall_mem_append

theorem wrap_clean {k p : ℕ} {ts : List LexerToken} (h : AllClean ts) :
    AllClean (wrap k p ts) := by
  unfold wrap
  split_ifs
  · rw [allClean_cons, allClean_append]
    refine ⟨sign_clean (by decide) (by decide), h, ?_⟩
    exact allClean_cons.mpr ⟨sign_clean (by decide) (by decide), by simp [AllClean]⟩
  · exact h

theorem Expr.lexemes_clean (e : Expr) : AllClean e.lexemes := by
  have hnil : AllClean [] := by simp [AllClean]
  have hsign {token : Token} (h : token ≠ .name) (hclean : token ≠ .lineEnd ∧ token ≠ .arrow ∧
      ¬token.Failed) {ts : List LexerToken} (hts : AllClean ts) : AllClean (sign token :: ts) :=
    allClean_cons.mpr ⟨sign_clean h hclean, hts⟩
  induction e with
  | ident x => exact allClean_cons.mpr ⟨word_clean _, hnil⟩
  | number value =>
    have hlegal : ¬Token.number.Failed := by decide
    have htoken : (⟨.number, "", value⟩ : LexerToken).resolve.token = .number := rfl
    refine allClean_cons.mpr ⟨⟨?_, ?_, ?_⟩, hnil⟩
    · simp [htoken]
    · simp [htoken]
    · rwa [htoken]
  | property object name ih =>
    rw [Expr.lexemes, allClean_append]
    exact ⟨wrap_clean ih, hsign (by decide) (by decide)
      (allClean_cons.mpr ⟨word_clean name, hnil⟩)⟩
  | index object key ih ihkey =>
    rw [Expr.lexemes, allClean_append]
    exact ⟨wrap_clean ih, hsign (by decide) (by decide)
      (allClean_append.mpr ⟨ihkey, hsign (by decide) (by decide) hnil⟩)⟩
  | post op e ih =>
    rw [Expr.lexemes, allClean_append]
    exact ⟨wrap_clean ih, allClean_cons.mpr ⟨op.lexeme_clean, hnil⟩⟩
  | pre op e ih => exact allClean_cons.mpr ⟨op.lexeme_clean, wrap_clean ih⟩
  | unary op e ih => exact allClean_cons.mpr ⟨op.lexeme_clean, wrap_clean ih⟩
  | power base exponent ih ihexponent =>
    rw [Expr.lexemes, allClean_append]
    exact ⟨wrap_clean ih, hsign (by decide) (by decide) (wrap_clean ihexponent)⟩
  | nakedPower op base exponent ih ihexponent =>
    rw [Expr.lexemes, allClean_cons, allClean_append]
    exact ⟨op.lexeme_clean, wrap_clean ih, hsign (by decide) (by decide)
      (wrap_clean ihexponent)⟩
  | binary op left right ihleft ihright =>
    rw [Expr.lexemes, allClean_append, allClean_cons]
    exact ⟨wrap_clean ihleft, op.lexeme_clean, wrap_clean ihright⟩
  | conditional cond yes no ihcond ihyes ihno =>
    rw [Expr.lexemes, allClean_append]
    exact ⟨wrap_clean ihcond, hsign (by decide) (by decide) (allClean_append.mpr
      ⟨wrap_clean ihyes, hsign (by decide) (by decide) (wrap_clean ihno)⟩)⟩
  | assign op naked left right ihleft ihright =>
    rw [Expr.lexemes, allClean_append, allClean_cons]
    exact ⟨wrap_clean ihleft, op.lexeme_clean, wrap_clean ihright⟩

/-- `njs_parser_token` and `njs_parser_expression` at the start of a script. -/
def parseTokens (els : Elsewhere) (fuel : ℕ) (ts : List LexerToken) :
    Option (Token × TreeParser) := do
  let (token, parser) ← TreeParser.next ⟨⟨Lexer.init ts, [], none⟩, .null, 0⟩
  parserExpression els fuel parser token

/-- The parser builds the node of a tree, or refuses what is written of it. -/
theorem parseTokens_parses (els : Elsewhere) (e : Expr) :
    Parses (fun fuel => parseTokens els fuel e.lexemes) (e.Valid els ∧ e.depth 0 ≤ 4097) []
      (e.node els) 0 := by
  have hbefore := init_before e.lexemes_clean
  have hcurrent : (Lexer.init e.lexemes).current ≠ .lineEnd := by
    simp [Lexer.current, Lexer.init]
  obtain ⟨lexer, htoken, hat, -⟩ := parserToken_at hbefore hcurrent
  have hnext : TreeParser.next ⟨⟨Lexer.init e.lexemes, [], none⟩, .null, 0⟩ =
      some ((first e.lexemes).token, ⟨⟨lexer, [], none⟩, .null, 0⟩) := by
    simp [TreeParser.next, htoken]
  have hfollow : Follow 0 [] := follow_of_none rfl
  have hreads := (e.readable els).reads 0 (Nat.zero_le _) ⟨⟨lexer, [], none⟩, .null, 0⟩ [] .null 0
    ⟨by rwa [written_of_le (Nat.zero_le _), List.append_nil], rfl, rfl⟩ hfollow
  rw [written_of_le (Nat.zero_le _), List.append_nil, Nat.zero_add] at hreads
  apply hreads.congr
  intro fuel
  rw [parseTokens, hnext]
  rfl

/-- What is written of a tree is parsed to a node that stands for the tree, up to the signs of the
numbers, if the tree is valid and nested less than 4098 deep. It is refused otherwise. -/
theorem parseTokens_lexemes (els : Elsewhere) (e : Expr) : ∃ n, ∀ fuel ≥ n, ∃ token parser,
    parseTokens els fuel e.lexemes = some (token, parser) ∧
      (e.Valid els ∧ e.depth 0 ≤ 4097 →
        token = .end ∧ parser.node = e.node els ∧ parser.node.tree = some e.fold) ∧
      (¬(e.Valid els ∧ e.depth 0 ≤ 4097) → token.Failed) := by
  have hparses := parseTokens_parses els e
  by_cases hok : e.Valid els ∧ e.depth 0 ≤ 4097
  · obtain ⟨parser, ⟨n, hyields⟩, hholds⟩ := hparses.accepts hok
    refine ⟨n, fun fuel hfuel => ⟨_, parser, hyields fuel hfuel, fun _ => ?_, fun hnot => ?_⟩⟩
    · rw [hholds.node]
      exact ⟨rfl, rfl, e.node_tree hok.1⟩
    · exact absurd hok hnot
  · obtain ⟨token, parser, ⟨n, hyields⟩, hfailed⟩ := hparses.refuses hok
    exact ⟨n, fun fuel hfuel => ⟨token, parser, hyields fuel hfuel, fun h => absurd h hok,
      fun _ => hfailed⟩⟩

/-- A machine without external objects, and without the parsers that no tree needs. -/
def plainMachine : Elsewhere :=
  ⟨fun _ => false, fun _ _ => none, fun _ _ => none, fun _ _ => none, fun _ _ => none⟩

/-- `delete a`. -/
def deleteVariable : Expr := .unary .delete (.ident ⟨"a", by decide⟩)

/-- `!!…0` with so many signs. -/
def negations : ℕ → Expr
  | 0 => .number (.finite 0)
  | n + 1 => .unary .not (negations n)

theorem negations_ownDepth (n : ℕ) : (negations n).ownDepth = n + 1 := by
  induction n with
  | zero => rfl
  | succ n ih =>
    have hprecedence : ¬(negations n).precedence < 14 := by
      cases n with
      | zero => decide
      | succ n => simp [negations, Expr.precedence]
    rw [negations, Expr.ownDepth, wrapDepth, if_neg hprecedence, ih]
    simp [descent, Nat.add_comm]

/-- The deletion of a variable is refused, and so is a row of signs that is nested too deeply. -/
theorem not_parseTokens :
    (∃ n, ∀ fuel ≥ n, ∃ token parser,
      parseTokens plainMachine fuel deleteVariable.lexemes = some (token, parser) ∧
        token.Failed) ∧
    (∃ n, ∀ fuel ≥ n, ∃ token parser,
      parseTokens plainMachine fuel (negations 4096).lexemes = some (token, parser) ∧
        token.Failed) := by
  have hrefused {e : Expr} (h : ¬(e.Valid plainMachine ∧ e.depth 0 ≤ 4097)) :
      ∃ n, ∀ fuel ≥ n, ∃ token parser,
        parseTokens plainMachine fuel e.lexemes = some (token, parser) ∧ token.Failed := by
    obtain ⟨token, parser, ⟨n, hyields⟩, hfailed⟩ := (parseTokens_parses plainMachine e).refuses h
    exact ⟨n, fun fuel hfuel => ⟨token, parser, hyields fuel hfuel, hfailed⟩⟩
  constructor
  · apply hrefused
    rintro ⟨⟨-, hvalid⟩, -⟩
    exact hvalid ⟨rfl, rfl⟩
  · apply hrefused
    rintro ⟨-, hdepth⟩
    have hown : (negations 4096).ownDepth = 4097 := negations_ownDepth 4096
    have hdescent : descent 0 (negations 4096).precedence = 1 := rfl
    rw [depth_of_le (Nat.zero_le _), hown, hdescent] at hdepth
    omega

end Njs.Parsing
