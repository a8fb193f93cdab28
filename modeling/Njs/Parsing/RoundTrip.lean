import Njs.Parsing.Levels
import Njs.Parsing.Precedence

/-!
# Reading what was written

The parser takes the lexemes of a tree at every level that the parentheses are written for. The
induction is on the tree: every constructor has the level of its precedence, and goes down to
the levels below it or up to the parentheses.
-/

namespace Njs.Parsing

open Njs.Lib

variable {els : Elsewhere} {k l : ℕ} {ts us rest : List LexerToken} {lt : LexerToken}
  {ok ok' : Prop} {depth depth' count : ℕ} {node result result' : Node} {parser : TreeParser}
  {expr : Expression} {token : Token} {operation : Operation} {name : String}

/-! ## The first tokens -/

theorem starts_of_first (hfirst : lt.resolve.token = token)
    (hunary : unaryOperation token = none) (hincDec : incDecOperation token = none)
    (hnew : token ≠ .new) : Starts k (lt :: ts) := by
  subst hfirst
  exact ⟨by simp, fun _ => hunary, fun _ => hincDec, fun _ => hnew⟩

theorem starts_openParenthesis (k : ℕ) (ts : List LexerToken) :
    Starts k (sign .openParenthesis :: ts) := by
  have hresolve : (sign .openParenthesis).resolve.token = .openParenthesis := rfl
  exact starts_of_first hresolve rfl rfl (by decide)

theorem Starts.append (h : Starts k ts) (us : List LexerToken) : Starts k (ts ++ us) := by
  have hfirst := @first_append ts us h.ne_nil
  constructor
  · simp [h.ne_nil]
  · rw [hfirst]
    exact h.unary
  · rw [hfirst]
    exact h.incDec
  · rw [hfirst]
    exact h.new

theorem starts_wrap {p : ℕ} (h : Starts p ts) : Starts k (wrap k p ts) := by
  unfold wrap
  split_ifs with hp
  · exact starts_openParenthesis k _
  · exact h.mono (Nat.not_lt.mp hp)

/-- Below the level of the operators in front, any token may be the first one. -/
theorem starts_cons (hk : k < 15) : Starts k (lt :: ts) :=
  ⟨by simp, fun h => absurd h (Nat.not_le.mpr hk), fun h => by omega, fun h => by omega⟩

theorem word_resolve (h : findKeyword name = none) : (word name).resolve = word name := by
  simp [LexerToken.resolve, lexerKeyword, word, h]

theorem Expr.starts (e : Expr) : Starts e.precedence e.lexemes := by
  induction e with
  | ident x =>
    have hresolve : (word x.name).resolve.token = .name := by
      rw [word_resolve x.notKeyword]
      rfl
    exact starts_of_first hresolve rfl rfl (by decide)
  | number value =>
    have hresolve : (⟨.number, "", value⟩ : LexerToken).resolve.token = .number := rfl
    exact starts_of_first hresolve rfl rfl (by decide)
  | property object name ih => exact (starts_wrap ih).append _
  | index object key ih _ => exact (starts_wrap ih).append _
  | post op e ih => exact ((starts_wrap ih).append _).mono (by simp [Expr.precedence])
  | pre op e ih =>
    have hunary : unaryOperation op.lexeme.resolve.token = none := by cases op <;> rfl
    exact ⟨by simp [Expr.lexemes], fun _ => hunary, fun h => by simp [Expr.precedence] at h,
      fun h => by simp [Expr.precedence] at h⟩
  | unary op e ih => exact starts_cons (by simp [Expr.precedence])
  | power base exponent ih _ =>
    exact ((starts_wrap ih).append _).mono (by simp [Expr.precedence])
  | nakedPower op base exponent _ _ => exact starts_cons (by simp [Expr.precedence])
  | binary op left right ih _ => exact (starts_wrap ih).append _
  | conditional cond yes no ih _ _ =>
    exact ((starts_wrap ih).append _).mono (by simp [Expr.precedence])
  | assign op naked left right ih _ =>
    cases naked with
    | true => exact ((starts_wrap ih).append _).mono (by simp [Expr.precedence, leftPrecedence])
    | false => exact ((starts_wrap ih).append _).mono (by simp [Expr.precedence, leftPrecedence])

theorem Expr.written_starts (e : Expr) (k : ℕ) : Starts k (e.written k) := starts_wrap e.starts

/-! ## Going down -/

/-- What a level reads is read by all levels below. -/
theorem Reads.lower (h : Reads els l ts ok depth result) (hl : l ≤ 16) (hstarts : Starts l ts)
    (hk : k ≤ l) : Reads els k ts ok (descent k l + depth) result := by
  induction hk using Nat.decreasingInduction with
  | self =>
    have hzero : descent l l = 0 := by
      rw [descent, if_neg]
      omega
    rwa [hzero, Nat.zero_add]
  | of_succ k hk ih =>
    have hstep := ih.step (by omega) (hstarts.mono hk)
    have hdepth : descent k l = (if k = 1 then 1 else 0) + descent (k + 1) l := by
      unfold descent
      split_ifs <;> omega
    rwa [hdepth, Nat.add_assoc]

/-! ## The constructors -/

/-- `njs_parser_terminal` for a token that starts no arrow function. -/
theorem TreeParser.Holds.terminal (els : Elsewhere) (h : parser.Holds ts node count)
    (hdot : (ts.headD endToken).token ≠ .dot) :
    ∃ parser', parser'.Holds ts node count ∧ ∀ fuel,
      terminal els (fuel + 1) parser (first ts).token =
        if (first ts).token = .openParenthesis then
          proceed parser'.next fun parser token =>
          proceed (binaryExpression els fuel .comma parser token) fun parser token =>
            parser.match token .closeParenthesis
        else if (first ts).token = .number then
          TreeParser.next { parser' with node := .number parser'.lexer.number }
        else if (first ts).token = .name then
          TreeParser.next { parser' with node := reference els parser'.lexer.text }
        else els.terminal parser' (first ts).token := by
  obtain ⟨code, lexer, hrun, hcode, hat⟩ := h.position.matchArrowExpression hdot
  refine ⟨{ parser with lexer }, ⟨hat, h.node, h.count⟩, fun fuel => ?_⟩
  simp [Parsing.terminal, hrun, hcode]

theorem TreeParser.Holds.setNode (h : parser.Holds ts node count) (result : Node) :
    { parser with node := result }.Holds ts result count :=
  ⟨h.position, rfl, h.count⟩

theorem TreeParser.Holds.text (h : parser.Holds (lt :: ts) node count) :
    parser.lexer.text = lt.text := by
  have htext : lt.resolve.text = lt.text := by
    unfold LexerToken.resolve lexerKeyword
    split_ifs
    · cases findKeyword lt.text <;> rfl
    · rfl
  rw [Lexer.text, h.position.lexerToken]
  exact htext

/-- The terminals that are one token enter once. -/
theorem readsCall_single
    (h : ∀ (parser : TreeParser) rest node count, parser.Holds (lt :: rest) node count →
      Parses (fun fuel => terminal els (fuel + 1) parser lt.resolve.token) True rest result count) :
    ReadsCall els [lt] True 1 result := by
  intro parser rest node count hparser
  apply Parses.enters
  apply Parses.of_iff (hparser.entered fun parser hparser => h parser rest node _ hparser)
  constructor
  · rintro ⟨hcount, -⟩
    exact ⟨trivial, by omega⟩
  · rintro ⟨-, hdepth⟩
    exact ⟨by omega, trivial⟩

theorem readsCall_ident (x : Identifier) :
    ReadsCall els [word x.name] True 1 (reference els x.name) := by
  apply readsCall_single
  intro parser rest node count hparser
  have htoken : (first (word x.name :: rest)).token = .name := by
    rw [first, List.headD_cons, word_resolve x.notKeyword]
    rfl
  obtain ⟨parser', hparser', hterminal⟩ := hparser.terminal els (by simp [word])
  apply Parses.congr hterminal
  simp only [htoken, reduceCtorEq, if_true, if_false, hparser'.text]
  exact (hparser'.setNode _).next

theorem readsCall_number (value : Number) :
    ReadsCall els [⟨.number, "", value⟩] True 1 (.number value) := by
  apply readsCall_single
  intro parser rest node count hparser
  have htoken : (first (⟨.number, "", value⟩ :: rest)).token = .number := rfl
  obtain ⟨parser', hparser', hterminal⟩ := hparser.terminal els (by simp)
  have hnumber : parser'.lexer.number = value := by
    rw [Lexer.number, hparser'.position.lexerToken]
    rfl
  apply Parses.congr hterminal
  simp only [htoken, reduceCtorEq, if_true, if_false, hnumber]
  exact (hparser'.setNode _).next

/-- Parentheses enter, and are a terminal. -/
theorem Reads.parentheses (h : Reads els 0 ts ok depth result) :
    ReadsCall els (sign .openParenthesis :: (ts ++ [sign .closeParenthesis])) ok (1 + depth)
      result := by
  intro parser rest node count hparser
  apply Parses.enters
  rw [List.cons_append, List.append_assoc] at hparser ⊢
  have hentered : Parses (fun fuel => parser.entered fun parser => terminal els (fuel + 1) parser
      (first (sign .openParenthesis :: (ts ++ ([sign .closeParenthesis] ++ rest)))).token)
      (count ≤ 4096 ∧ (True ∧ (ok ∧ count + 1 + depth ≤ 4097) ∧ True)) rest result count := by
    apply hparser.entered
    intro parser hparser
    obtain ⟨parser', hparser', hterminal⟩ := hparser.terminal els (by simp [sign])
    have htoken : (first (sign .openParenthesis ::
      (ts ++ ([sign .closeParenthesis] ++ rest)))).token = .openParenthesis := rfl
    apply Parses.congr hterminal
    simp only [htoken, if_true]
    apply hparser'.next.proceed
    intro _ parser hparser
    have hfollow : Follow 0 ([sign .closeParenthesis] ++ rest) := follow_of_none rfl
    apply (h parser _ _ _ hparser hfollow).proceed
    intro _ parser hparser
    have hmatch : parser.match (first ([sign .closeParenthesis] ++ rest)).token
        .closeParenthesis = parser.next := if_pos rfl
    apply Parses.congr fun _ => hmatch
    exact hparser.next
  apply hentered.of_iff
  constructor
  · rintro ⟨hcount, -, ⟨hok, hdepth⟩, -⟩
    exact ⟨hok, by omega⟩
  · rintro ⟨hok, hdepth⟩
    exact ⟨by omega, trivial, ⟨hok, by omega⟩, trivial⟩

/-- Behind a dot there is a name, which may be a keyword. -/
theorem ReadsCall.property (h : ReadsCall els ts ok depth result) (name : String) :
    ReadsCall els (ts ++ [sign .dot, word name]) ok depth
      (.node .property .propertyGet result (.string name)) := by
  intro parser rest node count hparser ok' rest' result' hloop
  rw [List.append_assoc] at hparser ⊢
  apply h parser _ node count hparser
  intro parser hparser
  obtain ⟨parser', hnext, hparser', hkeyword⟩ := hparser.next_eq
  have hdot : (first ([sign .dot, word name] ++ rest)).token = .dot := rfl
  have hname : ¬((first (word name :: rest)).token ≠ .name ∧ ¬parser'.lexer.keyword = true) := by
    rintro ⟨hname, hnot⟩
    exact hnot (hkeyword rfl rfl hname)
  have hunfold (fuel : ℕ) : propertyExpression els (fuel + 1) parser
      (first ([sign .dot, word name] ++ rest)).token =
        proceed parser'.next fun parser'' token => propertyExpression els fuel { parser'' with
          node := .node .property .propertyGet parser.node
            (.string parser'.lexer.text) } token := by
    rw [propertyExpression, if_pos hdot, hnext]
    exact if_neg hname
  apply Parses.succ hunfold
  apply Parses.of_iff _ (iff_of_eq (true_and ok'))
  apply hparser'.next.proceed
  intro _ parser'' hparser''
  have htext : parser'.lexer.text = name := hparser'.text
  rw [hparser.node, htext]
  exact hloop _ (hparser''.setNode _)

/-- Between brackets there is an expression. -/
theorem ReadsCall.index (h : ReadsCall els ts ok depth result)
    (hkey : Reads els 0 us ok' depth' result') :
    ReadsCall els (ts ++ sign .openBracket :: (us ++ [sign .closeBracket])) (ok ∧ ok')
      (max depth depth') (.node .property .propertyGet result result') := by
  intro parser rest node count hparser ok'' rest'' result'' hloop
  rw [List.append_assoc, List.cons_append, List.append_assoc] at hparser ⊢
  have hbracket : (first ([sign .closeBracket] ++ rest)).token = .closeBracket := rfl
  have hround := h parser _ node count hparser
    (True ∧ ((ok' ∧ count + depth' ≤ 4097) ∧ True) ∧ ok'') rest'' result'' fun parser hparser => by
      apply Parses.unroll
      have hfirst : (first (sign .openBracket :: (us ++ ([sign .closeBracket] ++ rest)))).token =
        .openBracket := rfl
      simp only [propertyExpression, hfirst, reduceCtorEq, if_true, if_false]
      apply hparser.next.proceed
      intro _ parser' hparser'
      apply Parses.proceed
      · apply Parses.unroll
        simp only [propertyBrackets]
        apply (hkey parser' _ _ _ hparser' (follow_of_none rfl)).proceed
        intro _ parser'' hparser''
        simp only [hbracket, ne_eq, not_true_eq_false, if_false]
        exact hparser''.next
      · intro _ parser'' hparser''
        rw [hparser.node, hparser''.node]
        exact hloop _ (hparser''.setNode _)
  apply hround.of_iff
  constructor
  · rintro ⟨⟨hok, hdepth⟩, -, ⟨⟨hok', hdepth'⟩, -⟩, hok''⟩
    exact ⟨⟨⟨hok, hok'⟩, by omega⟩, hok''⟩
  · rintro ⟨⟨⟨hok, hok'⟩, hdepth⟩, hok''⟩
    exact ⟨⟨hok, by omega⟩, trivial, ⟨⟨hok', by omega⟩, trivial⟩, hok''⟩

/-- An operator and what the next level reads is a round of the loop. -/
theorem ReadsLoop.binary (h : ReadsLoop els expr ts ok depth result)
    (hoperation : expr.operation lt.resolve.token = some operation)
    (hright : Reads els (expr.level + 1) us ok' depth' result') :
    ReadsLoop els expr (ts ++ lt :: us) (ok ∧ ok') (max depth depth')
      (.node lt.resolve.token operation result result') := by
  intro parser rest node count hparser hfollow ok'' rest'' result'' hloop
  rw [List.append_assoc] at hparser ⊢
  have hfollow' : Follow (expr.level + 1) (lt :: us ++ rest) :=
    follow_of_some (operation_level hoperation) (Nat.lt_succ_self _)
  have hround := h parser _ node count hparser hfollow'
    (True ∧ (ok' ∧ count + depth' ≤ 4097) ∧ ok'')
    rest'' result'' fun parser hparser => by
      apply Parses.unroll
      have hfirst : (first (lt :: us ++ rest)).token = lt.resolve.token := rfl
      simp only [binaryLoop, hfirst, hoperation]
      apply hparser.next.proceed
      intro _ parser' hparser'
      apply Parses.proceed
      · apply Parses.succ fun fuel => congrFun (congrFun (nextExpression_eq els fuel expr) _) _
        exact hright parser' rest _ count hparser' hfollow
      · intro _ parser'' hparser''
        rw [hparser.node, hparser''.node]
        exact hloop _ (hparser''.setNode _)
  apply hround.of_iff
  constructor
  · rintro ⟨⟨hok, hdepth⟩, -, ⟨hok', hdepth'⟩, hok''⟩
    exact ⟨⟨⟨hok, hok'⟩, by omega⟩, hok''⟩
  · rintro ⟨⟨⟨hok, hok'⟩, hdepth⟩, hok''⟩
    exact ⟨⟨hok, by omega⟩, trivial, ⟨hok', by omega⟩, hok''⟩

/-- A conditional is a round of the loop of `njs_parser_conditional_expression`. -/
theorem Reads.ternary {vs : List LexerToken} {ok'' : Prop} {depth'' : ℕ} {result'' : Node}
    (hcond : Reads els 3 ts ok depth result) (hyes : Reads els 1 us ok' depth' result')
    (hno : Reads els 1 vs ok'' depth'' result'') :
    Reads els 2 (ts ++ sign .conditional :: (us ++ sign .colon :: vs)) (ok ∧ ok' ∧ ok'')
      (max depth (max depth' depth''))
      (.node .conditional .stop result (.node .branching .stop result' result'')) := by
  intro parser rest node count hparser hfollow
  rw [List.append_assoc, List.cons_append, List.append_assoc, List.cons_append] at hparser ⊢
  have hquestion : (first (sign .conditional :: (us ++ sign .colon :: (vs ++ rest)))).token =
    .conditional := rfl
  have hcolon : (first (sign .colon :: (vs ++ rest))).token = .colon := rfl
  have hcall : Parses (fun fuel => levelParse els fuel 2 parser
      (first (ts ++ sign .conditional :: (us ++ sign .colon :: (vs ++ rest)))).token)
      ((ok ∧ count + depth ≤ 4097) ∧ True ∧ (ok' ∧ count + depth' ≤ 4097) ∧ True ∧
        (ok'' ∧ count + depth'' ≤ 4097) ∧ True) rest
      (.node .conditional .stop result (.node .branching .stop result' result'')) count := by
    apply Parses.unroll
    simp only [levelParse, conditionalExpression]
    apply (hcond parser _ node count hparser (follow_of_some rfl (by decide))).proceed
    intro _ parser hparser
    apply Parses.unroll
    simp only [conditionalLoop, hquestion, ne_eq, not_true_eq_false, if_false]
    apply hparser.next.proceed
    intro _ parser₁ hparser₁
    apply (hyes parser₁ _ _ count hparser₁ (follow_of_none rfl)).proceed
    intro _ parser₂ hparser₂
    simp only [hcolon, not_true_eq_false, if_false]
    apply hparser₂.next.proceed
    intro _ parser₃ hparser₃
    apply (hno parser₃ _ _ count hparser₃ hfollow.one).proceed
    intro _ parser₄ hparser₄
    rw [hparser.node, hparser₂.node, hparser₄.node]
    apply Parses.unroll
    simp only [conditionalLoop, if_pos (hfollow.ne .conditional rfl (le_refl 2))]
    exact (hparser₄.setNode _).parses fun _ => rfl
  apply hcall.of_iff
  constructor
  · rintro ⟨⟨hok, hdepth⟩, -, ⟨hok', hdepth'⟩, -, ⟨hok'', hdepth''⟩, -⟩
    exact ⟨⟨hok, hok', hok''⟩, by omega⟩
  · rintro ⟨⟨hok, hok', hok''⟩, hdepth⟩
    exact ⟨⟨hok, by omega⟩, trivial, ⟨hok', by omega⟩, trivial, ⟨hok'', by omega⟩, trivial⟩

theorem invalidAssignment_eq (parser : TreeParser) :
    ∃ parser', parser.invalidAssignment = (.illegal, parser') := by
  unfold TreeParser.invalidAssignment TreeParser.illegal
  split_ifs
  · exact ⟨_, rfl⟩
  · exact ⟨_, rfl⟩
  · exact ⟨_, rfl⟩

/-- An assignment is refused where the left-hand side is none. -/
theorem Reads.assignment (hleft : Reads els 3 ts ok depth result)
    (hoperation : assignmentOperation lt.resolve.token = some operation)
    (hright : Reads els 1 us ok' depth' result') :
    Reads els 1 (ts ++ lt :: us) (ok ∧ result.IsLvalue ∧ ok') (max (1 + depth) (1 + depth'))
      (.node lt.resolve.token operation result result') := by
  intro parser rest node count hparser hfollow
  rw [List.append_assoc, List.cons_append] at hparser ⊢
  have hfirst : (first (lt :: (us ++ rest))).token = lt.resolve.token := rfl
  have hlevel := assignmentOperation_level hoperation
  have hconditional : (first (lt :: (us ++ rest))).token ≠ .conditional := by
    rw [hfirst]
    intro hconditional
    simp [hconditional, assignmentOperation] at hoperation
  have hcall : Parses (fun fuel => levelParse els fuel 1 parser
      (first (ts ++ lt :: (us ++ rest))).token)
      ((count ≤ 4096 ∧ ok ∧ count + 1 + depth ≤ 4097) ∧ result.IsLvalue ∧ True ∧
        (count ≤ 4096 ∧ ok' ∧ count + 1 + depth' ≤ 4097) ∧ True) rest
      (.node lt.resolve.token operation result result') count := by
    apply Parses.unroll
    simp only [levelParse, assignmentExpression]
    apply (hparser.entered fun parser hparser => hleft.conditional hparser
      (follow_of_some hlevel (by decide)) hconditional).proceed
    intro _ parser hparser
    apply Parses.unroll
    simp only [assignmentLoop, hfirst, hoperation, hparser.node]
    by_cases hlvalue : result.IsLvalue
    · simp only [hlvalue, not_true_eq_false, if_false, true_and]
      apply Parses.of_iff _ (iff_of_eq (true_and _))
      apply hparser.next.proceed
      intro _ parser' hparser'
      apply (hparser'.entered fun parser hparser => hright parser _ _ _ hparser hfollow).proceed
      intro _ parser'' hparser''
      rw [hparser''.node]
      apply Parses.unroll
      simp only [assignmentLoop, assignmentOperation_eq_none (hfollow.mono (by decide))]
      exact (hparser''.setNode _).parses fun _ => rfl
    · simp only [hlvalue, not_false_eq_true, if_true, false_and]
      obtain ⟨parser', hinvalid⟩ := invalidAssignment_eq parser
      rw [hinvalid]
      exact parses_refused (fun _ => rfl) (by decide)
  apply hcall.of_iff
  constructor
  · rintro ⟨⟨hcount, hok, hdepth⟩, hlvalue, -, ⟨-, hok', hdepth'⟩, -⟩
    exact ⟨⟨hok, hlvalue, hok'⟩, by omega⟩
  · rintro ⟨⟨hok, hlvalue, hok'⟩, hdepth⟩
    exact ⟨⟨by omega, hok, by omega⟩, hlvalue, trivial, ⟨by omega, hok', by omega⟩, trivial⟩

/-- `njs_parser_exponential_expression` enters for the exponent. -/
theorem Reads.power (hbase : Reads els 15 ts ok depth result) (hstarts : Starts 15 ts)
    (hexponent : Reads els 13 us ok' depth' result') :
    Reads els 13 (ts ++ sign .exponentiation :: us) (ok ∧ ok') (max depth (1 + depth'))
      (.node .exponentiation .exponentiation result result') := by
  intro parser rest node count hparser hfollow
  rw [List.append_assoc, List.cons_append] at hparser ⊢
  have hfirst : (first (sign .exponentiation :: (us ++ rest))).token = .exponentiation := rfl
  have hcall : Parses (fun fuel => levelParse els fuel 13 parser
      (first (ts ++ sign .exponentiation :: (us ++ rest))).token)
      ((ok ∧ count + depth ≤ 4097) ∧ True ∧
        (count ≤ 4096 ∧ ok' ∧ count + 1 + depth' ≤ 4097) ∧ True) rest
      (.node .exponentiation .exponentiation result result') count := by
    apply Parses.unroll
    simp only [levelParse, exponentialExpression]
    apply (hbase.unary hstarts hparser (follow_of_some rfl (by decide))).proceed
    intro _ parser hparser
    simp only [hfirst, if_true]
    apply hparser.next.proceed
    intro _ parser' hparser'
    apply (hparser'.entered fun parser hparser => hexponent parser _ _ _ hparser hfollow).proceed
    intro _ parser'' hparser''
    rw [hparser.node, hparser''.node]
    exact (hparser''.setNode _).parses fun _ => rfl
  apply hcall.of_iff
  constructor
  · rintro ⟨⟨hok, hdepth⟩, -, ⟨-, hok', hdepth'⟩, -⟩
    exact ⟨⟨hok, hok'⟩, by omega⟩
  · rintro ⟨⟨hok, hok'⟩, hdepth⟩
    exact ⟨⟨hok, by omega⟩, trivial, ⟨by omega, hok', by omega⟩, trivial⟩

/-- A node that `delete` refuses. -/
def Node.IsUnqualified (node : Node) : Prop := ∃ name type, node = .reference .name name type

theorem unaryNode_eq {op : UnaryOperator} (h : ¬(op = .delete ∧ parser.node.IsUnqualified)) :
    unaryNode parser op.token op.operation token =
      (token, { parser with node := op.apply parser.node }) := by
  obtain ⟨toParser, node, count⟩ := parser
  cases op with
  | delete =>
    cases node with
    | reference token name type =>
      by_cases htoken : token = .name
      · subst htoken
        exact absurd ⟨rfl, name, type, rfl⟩ h
      · cases token <;> first | rfl | exact absurd rfl htoken
    | node token operation left right => cases token <;> rfl
    | _ => rfl
  | typeof =>
    cases node with
    | reference token name type => cases token <;> rfl
    | _ => rfl
  | _ => cases node <;> rfl

theorem unaryNode_failed (token : Token) (operation : Operation)
    (h : parser.node.IsUnqualified) :
    ∃ parser', unaryNode parser .delete operation token = (.illegal, parser') := by
  obtain ⟨toParser, node, count⟩ := parser
  obtain ⟨name, type, rfl⟩ := h
  exact ⟨_, rfl⟩

/-- A unary operator enters, and `delete` refuses a variable. -/
theorem Reads.operator (op : UnaryOperator) (h : Reads els 14 ts ok depth result) :
    Reads els 14 (op.lexeme :: ts) (ok ∧ ¬(op = .delete ∧ result.IsUnqualified)) (1 + depth)
      (op.apply result) := by
  intro parser rest node count hparser hfollow
  rw [List.cons_append] at hparser ⊢
  have hoperation : unaryOperation (first (op.lexeme :: (ts ++ rest))).token =
      some (op.token, op.operation) := by
    rw [first, List.headD_cons]
    cases op <;> rfl
  have hcall : Parses (fun fuel => levelParse els fuel 14 parser
      (first (op.lexeme :: (ts ++ rest))).token)
      (True ∧ (count ≤ 4096 ∧ ok ∧ count + 1 + depth ≤ 4097) ∧
        ¬(op = .delete ∧ result.IsUnqualified)) rest (op.apply result) count := by
    apply Parses.unroll
    simp only [levelParse, unaryExpression, hoperation]
    apply hparser.next.proceed
    intro _ parser hparser
    apply (hparser.entered fun parser hparser => h parser _ _ _ hparser hfollow).proceed
    intro _ parser' hparser'
    simp only [if_neg (hfollow.ne .exponentiation rfl (le_refl 14))]
    by_cases hrefused : op = .delete ∧ result.IsUnqualified
    · obtain ⟨rfl, hunqualified⟩ := hrefused
      obtain ⟨parser'', hnode⟩ := unaryNode_failed (first rest).token
        UnaryOperator.delete.operation (hparser'.node.symm ▸ hunqualified)
      have hfailed : Token.illegal.Failed := by decide
      apply (parses_refused (fun _ => congrArg some hnode) hfailed).of_iff
      exact iff_of_false id fun hnot => hnot ⟨rfl, hunqualified⟩
    · have hrefused' : ¬(op = .delete ∧ parser'.node.IsUnqualified) := by
        rwa [hparser'.node]
      rw [unaryNode_eq hrefused', hparser'.node]
      exact ((hparser'.setNode _).parses fun _ => rfl).of_iff (iff_of_true trivial hrefused)
  apply hcall.of_iff
  constructor
  · rintro ⟨-, ⟨hcount, hok, hdepth⟩, hnot⟩
    exact ⟨⟨hok, hnot⟩, by omega⟩
  · rintro ⟨⟨hok, hnot⟩, hdepth⟩
    exact ⟨trivial, ⟨by omega, hok, by omega⟩, hnot⟩

/-- A prefix operator is refused where no lvalue follows. -/
theorem Reads.increment (op : IncrementOperator) (h : Reads els 16 ts ok depth result) :
    Reads els 15 (op.lexeme :: ts) (ok ∧ result.IsLvalue) depth (op.pre result) := by
  intro parser rest node count hparser hfollow
  rw [List.cons_append] at hparser ⊢
  obtain ⟨operation, hoperation, hpre⟩ : ∃ operation,
      incDecOperation (first (op.lexeme :: (ts ++ rest))).token = some operation ∧
      op.pre result = .node (first (op.lexeme :: (ts ++ rest))).token operation result .null := by
    rw [first, List.headD_cons]
    cases op
    · exact ⟨_, rfl, rfl⟩
    · exact ⟨_, rfl, rfl⟩
  have hcall : Parses (fun fuel => levelParse els fuel 15 parser
      (first (op.lexeme :: (ts ++ rest))).token)
      (True ∧ (ok ∧ count + depth ≤ 4097) ∧ result.IsLvalue) rest (op.pre result) count := by
    apply Parses.unroll
    simp only [levelParse, incDecExpression, hoperation]
    apply hparser.next.proceed
    intro _ parser hparser
    apply (h parser _ _ _ hparser (hfollow.mono (by decide))).proceed
    intro _ parser hparser
    rw [hparser.node]
    by_cases hlvalue : result.IsLvalue
    · simp only [hlvalue, not_true_eq_false, if_false, hpre]
      exact (hparser.setNode _).parses fun _ => rfl
    · simp only [hlvalue, not_false_eq_true, if_true]
      exact parses_refused (fun _ => rfl) (by decide)
  apply hcall.of_iff
  rw [true_and, and_right_comm]

/-- A postfix operator is refused where it follows no lvalue. -/
theorem Reads.post (op : IncrementOperator) (h : Reads els 16 ts ok depth result)
    (hstarts : Starts 16 ts) :
    Reads els 15 (ts ++ [op.lexeme]) (ok ∧ result.IsLvalue) depth (op.post result) := by
  intro parser rest node count hparser hfollow
  rw [List.append_assoc, List.singleton_append] at hparser ⊢
  have hfirst : (first (op.lexeme :: rest)).token = op.lexeme.resolve.token := rfl
  have hlevel : op.lexeme.resolve.token.level = some 15 := by cases op <;> rfl
  obtain ⟨token, operation, hoperation, hpost⟩ : ∃ token operation,
      postOperation (first (op.lexeme :: rest)).token = some (token, operation) ∧
      op.post result = .node token operation result .null := by
    rw [hfirst]
    cases op
    · exact ⟨_, _, rfl, rfl⟩
    · exact ⟨_, _, rfl, rfl⟩
  have hcall : Parses (fun fuel => levelParse els fuel 15 parser
      (first (ts ++ op.lexeme :: rest)).token)
      ((ok ∧ count + depth ≤ 4097) ∧ result.IsLvalue) rest (op.post result) count := by
    apply Parses.unroll
    simp only [levelParse, incDecExpression, first_append hstarts.ne_nil,
      hstarts.incDec (le_refl 16)]
    apply Parses.unroll
    simp only [postIncDecExpression]
    rw [← first_append hstarts.ne_nil]
    apply (h parser _ node count hparser (follow_of_some hlevel (by decide))).proceed
    intro _ parser hparser
    simp only [hoperation, if_neg hparser.position.prevToken, hparser.node]
    by_cases hlvalue : result.IsLvalue
    · simp only [hlvalue, not_true_eq_false, if_false, ← hpost]
      exact (hparser.setNode _).next
    · simp only [hlvalue, not_false_eq_true, if_true]
      exact parses_refused (fun _ => rfl) (by decide)
  exact hcall.of_iff and_right_comm

/-! ## A unary operator in front of a power -/

variable (els) in
/-- `njs_parser_unary_expression` takes the tokens in front of an exponentiation, or refuses
them. -/
def MeetsPower (ts : List LexerToken) : Prop :=
  ∃ (ok : ℕ → Prop) (result : Node), ∀ (parser : TreeParser) rest node count,
    parser.Holds (ts ++ sign .exponentiation :: rest) node count →
      Parses (fun fuel => unaryExpression els fuel parser
        (first (ts ++ sign .exponentiation :: rest)).token) (ok count)
        (sign .exponentiation :: rest) result count

theorem Reads.meetsPower (h : Reads els 15 ts ok depth result) (hstarts : Starts 15 ts) :
    MeetsPower els ts := by
  refine ⟨fun count => ok ∧ count + depth ≤ 4097, result, ?_⟩
  intro parser rest node count hparser
  exact h.unary hstarts hparser (follow_of_some rfl (by decide))

/-- The exponentiation is refused behind the operand of a unary operator. -/
theorem MeetsPower.refused (op : UnaryOperator) (result : Node) (h : MeetsPower els ts)
    (hparser : parser.Holds (op.lexeme :: (ts ++ sign .exponentiation :: rest)) node count) :
    Parses (fun fuel => unaryExpression els fuel parser
      (first (op.lexeme :: (ts ++ sign .exponentiation :: rest))).token) False
      (sign .exponentiation :: rest) result count := by
  obtain ⟨ok, result', h⟩ := h
  have hoperation : unaryOperation
      (first (op.lexeme :: (ts ++ sign .exponentiation :: rest))).token =
        some (op.token, op.operation) := by
    rw [first, List.headD_cons]
    cases op <;> rfl
  have hfirst : (first (sign .exponentiation :: rest)).token = .exponentiation := rfl
  have hcall : Parses (fun fuel => unaryExpression els fuel parser
      (first (op.lexeme :: (ts ++ sign .exponentiation :: rest))).token)
      (True ∧ (count ≤ 4096 ∧ ok (count + 1)) ∧ False) (sign .exponentiation :: rest) result
      count := by
    apply Parses.unroll
    simp only [unaryExpression, hoperation]
    apply hparser.next.proceed
    intro _ parser hparser
    apply (hparser.entered fun parser hparser => h parser _ _ _ hparser).proceed
    intro _ parser hparser
    simp only [hfirst, if_true]
    exact parses_refused (fun _ => rfl) (by decide)
  apply hcall.of_iff
  simp

/-- A unary operator must not stand in front of the base of a power. -/
theorem MeetsPower.nakedPower (op : UnaryOperator) (h : MeetsPower els ts) (depth : ℕ) :
    Reads els 13 (op.lexeme :: (ts ++ sign .exponentiation :: us)) False depth result := by
  intro parser rest node count hparser hfollow
  rw [List.cons_append, List.append_assoc, List.cons_append] at hparser ⊢
  have hcall : Parses (fun fuel => levelParse els fuel 13 parser
      (first (op.lexeme :: (ts ++ sign .exponentiation :: (us ++ rest)))).token)
      (False ∧ True) rest result count := by
    apply Parses.unroll
    simp only [levelParse, exponentialExpression]
    apply (h.refused op result hparser).proceed
    exact fun hfalse => hfalse.elim
  apply hcall.of_iff
  simp

/-! ## All trees -/

theorem apply_token (op : UnaryOperator) (node : Node) :
    (op.apply node).token ≠ .name ∧ (op.apply node).token ≠ .property := by
  unfold UnaryOperator.apply
  split
  · simp [Node.token]
  · simp [Node.token]
  · simp [Node.token]
  · simp [Node.token]
  · cases op <;> simp [Node.token, UnaryOperator.token]

/-- The token of a node tells whether it is a variable or a property. -/
theorem Expr.node_token (e : Expr) : ((e.node els).token = .name ↔ e.Unqualified els) ∧
    ((e.node els).token = .property ↔ e.Lvalue els ∧ ¬e.Unqualified els) := by
  cases e with
  | ident x =>
    rw [Expr.node, reference]
    cases hexternal : els.external x.name <;>
      simp [Expr.Unqualified, Expr.Lvalue, Node.token, hexternal]
  | number value => simp [Expr.node, Expr.Unqualified, Expr.Lvalue, Node.token]
  | property object name => simp [Expr.node, Expr.Unqualified, Expr.Lvalue, Node.token]
  | index object key => simp [Expr.node, Expr.Unqualified, Expr.Lvalue, Node.token]
  | post op e =>
    cases op <;> simp [Expr.node, IncrementOperator.post, Expr.Unqualified, Expr.Lvalue, Node.token]
  | pre op e =>
    cases op <;> simp [Expr.node, IncrementOperator.pre, Expr.Unqualified, Expr.Lvalue, Node.token]
  | unary op e => simp [Expr.node, Expr.Unqualified, Expr.Lvalue, apply_token]
  | power base exponent => simp [Expr.node, Expr.Unqualified, Expr.Lvalue, Node.token]
  | nakedPower op base exponent => simp [Expr.node, Expr.Unqualified, Expr.Lvalue, Node.token]
  | binary op left right =>
    rw [Expr.node, Node.token]
    have hlevel : op.lexeme.resolve.token.level = some op.precedence := by cases op <;> rfl
    constructor
    · apply iff_of_false _ id
      intro hname
      simp [hname, Token.level] at hlevel
    · apply iff_of_false _ And.left
      intro hproperty
      simp [hproperty, Token.level] at hlevel
  | conditional cond yes no => simp [Expr.node, Expr.Unqualified, Expr.Lvalue, Node.token]
  | assign op naked left right =>
    cases op <;> simp [Expr.node, Expr.Unqualified, Expr.Lvalue, Node.token, sign,
      AssignmentOperator.lexeme]

theorem Expr.isLvalue_iff (e : Expr) : (e.node els).IsLvalue ↔ e.Lvalue els := by
  have hlvalue : e.Unqualified els → e.Lvalue els := by
    cases e <;> simp [Expr.Unqualified, Expr.Lvalue]
  rw [Node.IsLvalue, e.node_token.1, e.node_token.2]
  constructor
  · rintro (hunqualified | ⟨h, -⟩)
    · exact hlvalue hunqualified
    · exact h
  · intro h
    by_cases hunqualified : e.Unqualified els
    · exact Or.inl hunqualified
    · exact Or.inr ⟨h, hunqualified⟩

theorem Expr.isUnqualified_iff (e : Expr) : (e.node els).IsUnqualified ↔ e.Unqualified els := by
  constructor
  · rintro ⟨name, type, hnode⟩
    rw [← e.node_token.1, hnode]
    rfl
  · intro hunqualified
    cases e with
    | ident x =>
      have hexternal : els.external x.name = false := hunqualified
      exact ⟨x.name, .reference, by simp [Expr.node, reference, hexternal]⟩
    | _ => exact hunqualified.elim

variable (els) in
/-- The parser takes what is written of the tree, at every level. -/
structure Readable (e : Expr) : Prop where
  reads : ∀ k ≤ 16, Reads els k (e.written k) (e.Valid els) (e.depth k) (e.node els)
  loop : ∀ expr : Expression, ReadsLoop els expr (e.written expr.level) (e.Valid els)
    (e.depth expr.level) (e.node els)
  call : ReadsCall els (e.written 16) (e.Valid els) (e.depth 16) (e.node els)
  power : MeetsPower els (e.written 14)

variable {e : Expr}

theorem written_of_lt (h : e.precedence < k) : e.written k =
    sign .openParenthesis :: (e.lexemes ++ [sign .closeParenthesis]) := if_pos h

theorem written_of_le (h : k ≤ e.precedence) : e.written k = e.lexemes :=
  if_neg (Nat.not_lt.mpr h)

theorem depth_of_lt (h : e.precedence < k) :
    e.depth k = descent k 16 + 1 + (descent 0 e.precedence + e.ownDepth) := if_pos h

theorem depth_of_le (h : k ≤ e.precedence) : e.depth k = descent k e.precedence + e.ownDepth :=
  if_neg (Nat.not_lt.mpr h)

theorem descent_min (k p : ℕ) : descent k (min 16 p) = descent k p := by
  unfold descent
  split_ifs <;> omega

/-- It is enough that the function for the precedence of a tree takes it, with its loop. -/
theorem Readable.of_precedence
    (hreads : Reads els (min 16 e.precedence) e.lexemes (e.Valid els) e.ownDepth (e.node els))
    (hloop : ∀ expr : Expression, expr.level = e.precedence →
      ReadsLoop els expr e.lexemes (e.Valid els) e.ownDepth (e.node els))
    (hcall : 16 ≤ e.precedence → ReadsCall els e.lexemes (e.Valid els) e.ownDepth (e.node els))
    (hpower : e.precedence = 14 → MeetsPower els e.lexemes) : Readable els e := by
  have hlower (k : ℕ) (hk : k ≤ 16) (hle : k ≤ e.precedence) :
      Reads els k e.lexemes (e.Valid els) (descent k e.precedence + e.ownDepth) (e.node els) := by
    rw [← descent_min]
    exact hreads.lower (min_le_left _ _) (e.starts.mono (min_le_right _ _)) (le_min hk hle)
  have hparentheses := (hlower 0 (Nat.zero_le _) (Nat.zero_le _)).parentheses
  have hread (k : ℕ) (hk : k ≤ 16) :
      Reads els k (e.written k) (e.Valid els) (e.depth k) (e.node els) := by
    by_cases hlt : e.precedence < k
    · have hstarts := starts_openParenthesis 16 (e.lexemes ++ [sign .closeParenthesis])
      rw [written_of_lt hlt, depth_of_lt hlt, Nat.add_assoc]
      exact (hparentheses.reads hstarts).lower (le_refl 16) hstarts hk
    · rw [written_of_le (Nat.not_lt.mp hlt), depth_of_le (Nat.not_lt.mp hlt)]
      exact hlower k hk (Nat.not_lt.mp hlt)
  constructor
  · exact hread
  · intro expr
    by_cases hlevel : expr.level = e.precedence
    · have hzero : descent e.precedence e.precedence = 0 := by
        unfold descent
        rw [if_neg (by omega)]
      rw [hlevel, written_of_le (le_refl _), depth_of_le (le_refl _), hzero, Nat.zero_add]
      exact hloop expr hlevel
    · have hbound : expr.level + 1 ≤ 13 := by cases expr <;> decide
      have hnext := (hread (expr.level + 1) (by omega)).readsLoop
      have hdescent (p : ℕ) : descent (expr.level + 1) p = descent expr.level p := by
        cases expr <;> simp [descent, Expression.level]
      by_cases hlt : e.precedence < expr.level
      · have hlt' : e.precedence < expr.level + 1 := Nat.lt_succ_of_lt hlt
        rw [written_of_lt hlt', depth_of_lt hlt', hdescent] at hnext
        rw [written_of_lt hlt, depth_of_lt hlt]
        exact hnext
      · have hle : expr.level + 1 ≤ e.precedence := by omega
        rw [written_of_le hle, depth_of_le hle, hdescent] at hnext
        rw [written_of_le (Nat.le_of_succ_le hle), depth_of_le (Nat.le_of_succ_le hle)]
        exact hnext
  · by_cases hlt : e.precedence < 16
    · rw [written_of_lt hlt, depth_of_lt hlt]
      exact hparentheses
    · have hle := Nat.not_lt.mp hlt
      have hzero : descent 16 e.precedence = 0 := if_neg (by omega)
      rw [written_of_le hle, depth_of_le hle, hzero, Nat.zero_add]
      exact hcall hle
  · have hmeets := (hread 15 (by decide)).meetsPower (e.written_starts 15)
    rcases Nat.lt_trichotomy e.precedence 14 with hlt | heq | hgt
    · rwa [written_of_lt (Nat.lt_succ_of_lt hlt), ← written_of_lt hlt] at hmeets
    · rw [written_of_le (le_of_eq heq.symm)]
      exact hpower heq
    · rwa [written_of_le hgt, ← written_of_le (Nat.le_of_lt hgt)] at hmeets

theorem Reads.of_iff (h : Reads els k ts ok depth result) (hok : ok ↔ ok') :
    Reads els k ts ok' depth result := by
  rwa [← propext hok]

/-- A tree that is no binary operator, no unary one and no terminal. -/
theorem Readable.of_reads {p : ℕ} (h : Reads els p e.lexemes (e.Valid els) e.ownDepth
      (e.node els)) (hprecedence : e.precedence = p) (hp : p ∈ [1, 2, 13, 15]) :
    Readable els e := by
  have hlevel : ∀ p ∈ [1, 2, 13, 15], ∀ expr : Expression, expr.level ≠ p := by
    intro p hp expr
    cases expr <;> revert p <;> decide
  have hbound : ∀ p ∈ [1, 2, 13, 15], p < 16 ∧ p ≠ 14 := by decide
  obtain ⟨hlt, hunary⟩ := hbound p hp
  apply Readable.of_precedence
  · rwa [hprecedence, min_eq_right (Nat.le_of_lt hlt)]
  · exact fun expr heq => absurd (heq.trans hprecedence) (hlevel p hp expr)
  · exact fun hle => absurd hlt (Nat.not_lt.mpr (hprecedence ▸ hle))
  · exact fun heq => absurd (hprecedence.symm.trans heq) hunary

theorem Readable.of_readsCall (h : ReadsCall els e.lexemes (e.Valid els) e.ownDepth (e.node els))
    (hle : 16 ≤ e.precedence) : Readable els e := by
  apply Readable.of_precedence
  · rw [min_eq_left hle]
    exact h.reads (e.starts.mono hle)
  · intro expr heq
    have hbound : expr.level < 16 := by cases expr <;> decide
    omega
  · exact fun _ => h
  · intro heq
    omega

theorem level_injective {expr expr' : Expression} (h : expr.level = expr'.level) :
    expr = expr' := by
  cases expr <;> cases expr' <;> first | rfl | simp [Expression.level] at h

/-- The descriptor of a binary operator. -/
def BinaryOperator.expression : BinaryOperator → Expression
  | .comma => .comma
  | .or => .logicalOr
  | .and => .logicalAnd
  | .bitOr => .bitwiseOr
  | .bitXor => .bitwiseXor
  | .bitAnd => .bitwiseAnd
  | .equal | .notEqual | .strictEqual | .strictNotEqual => .equality
  | .less | .lessOrEqual | .greater | .greaterOrEqual | .in | .instanceof => .relational
  | .leftShift | .rightShift | .unsignedRightShift => .bitwiseShift
  | .plus | .minus => .addition
  | .times | .divide | .remainder => .factor

theorem BinaryOperator.expression_level (op : BinaryOperator) :
    op.expression.level = op.precedence := by cases op <;> rfl

theorem BinaryOperator.expression_operation (op : BinaryOperator) :
    op.expression.operation op.lexeme.resolve.token = some op.operation := by cases op <;> rfl

theorem AssignmentOperator.assignmentOperation_eq (op : AssignmentOperator) :
    assignmentOperation op.lexeme.resolve.token = some op.operation := by cases op <;> rfl

/-- The parser takes every tree. -/
theorem Expr.readable (els : Elsewhere) (e : Expr) : Readable els e := by
  induction e with
  | ident x => exact Readable.of_readsCall (readsCall_ident x) (by simp [Expr.precedence])
  | number value =>
    exact Readable.of_readsCall (readsCall_number value) (by simp [Expr.precedence])
  | property object name ih =>
    exact Readable.of_readsCall (ih.call.property name) (by simp [Expr.precedence])
  | index object key ih ihkey =>
    exact Readable.of_readsCall (ih.call.index (ihkey.reads 0 (Nat.zero_le _)))
      (by simp [Expr.precedence])
  | post op e ih =>
    have h := (ih.reads 16 (le_refl _)).post op (e.written_starts 16)
    exact Readable.of_reads (h.of_iff (and_congr_right fun _ => e.isLvalue_iff)) rfl (by decide)
  | pre op e ih =>
    have h := (ih.reads 16 (le_refl _)).increment op
    exact Readable.of_reads (h.of_iff (and_congr_right fun _ => e.isLvalue_iff)) rfl (by decide)
  | unary op e ih =>
    have h := (ih.reads 14 (by decide)).operator op
    rw [e.isUnqualified_iff] at h
    apply Readable.of_precedence
    · exact h
    · intro expr heq
      have hbound : expr.level < 14 := by cases expr <;> decide
      exact absurd heq (Nat.ne_of_lt hbound)
    · exact fun hle => absurd hle (by simp [Expr.precedence])
    · intro _
      refine ⟨fun _ => False, .null, fun parser rest node count hparser => ?_⟩
      exact ih.power.refused op .null hparser
  | power base exponent ih ihexponent =>
    have h := (ih.reads 15 (by decide)).power (base.written_starts 15)
      (ihexponent.reads 13 (by decide))
    exact Readable.of_reads h rfl (by decide)
  | nakedPower op base exponent ih ihexponent =>
    exact Readable.of_reads (ih.power.nakedPower op _) rfl (by decide)
  | binary op left right ihleft ihright =>
    have hbound : op.precedence < 13 := by cases op <;> decide
    have hright := ihright.reads (op.precedence + 1) (by omega)
    have hleft := ihleft.loop op.expression
    rw [← op.expression_level] at hright
    have h := hleft.binary op.expression_operation hright
    rw [op.expression_level] at h
    apply Readable.of_precedence
    · rw [Expr.precedence, min_eq_right (by omega), ← op.expression_level]
      exact h.reads
    · intro expr heq
      rw [level_injective (heq.trans op.expression_level.symm)]
      exact h
    · intro hle
      rw [Expr.precedence] at hle
      omega
    · intro heq
      rw [Expr.precedence] at heq
      omega
  | conditional cond yes no ihcond ihyes ihno =>
    have h := (ihcond.reads 3 (by decide)).ternary (ihyes.reads 1 (by decide))
      (ihno.reads 1 (by decide))
    exact Readable.of_reads h rfl (by decide)
  | assign op naked left right ihleft ihright =>
    have hleft : Reads els 3 (left.written (leftPrecedence naked)) (left.Valid els)
        (left.depth (leftPrecedence naked)) (left.node els) := by
      cases naked with
      | true => exact ihleft.reads 3 (by decide)
      | false =>
        have h := (ihleft.reads 16 (le_refl _)).lower (le_refl _) (left.written_starts 16)
          (by decide : 3 ≤ 16)
        have hzero : descent 3 16 = 0 := by decide
        rwa [hzero, Nat.zero_add] at h
    have hright := ihright.reads 1 (by decide)
    have h := hleft.assignment op.assignmentOperation_eq hright
    have htoken : op.lexeme.resolve.token = op.lexeme.token := by cases op <;> rfl
    rw [htoken, left.isLvalue_iff] at h
    exact Readable.of_reads h rfl (by decide)

end Njs.Parsing
