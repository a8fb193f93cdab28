import Njs.Lib.Fuel
import Njs.Parsing.Position
import Mathlib.Tactic.IntervalCases

/-!
# The levels of the parser

What it means that a call takes the tokens in front of a rest, with rules for the ways in which
the functions of the parser call each other. Every function has a level. It takes the operators
of its level and of the levels above, and leaves the others to its callers.
-/

namespace Njs.Parsing

open Njs.Lib

/-- The parser is at the first of the tokens, with this node and this count. -/
structure TreeParser.Holds (parser : TreeParser) (ts : List LexerToken) (node : Node)
    (count : ℕ) : Prop where
  position : parser.lexer.At ts
  node : parser.node = node
  count : parser.count = count

/-- The call takes the tokens in front of the rest and builds the node, or it refuses them. -/
structure Parses (call : ℕ → Option (Token × TreeParser)) (ok : Prop) (rest : List LexerToken)
    (node : Node) (count : ℕ) : Prop where
  accepts : ok → ∃ parser, Yields call ((first rest).token, parser) ∧ parser.Holds rest node count
  refuses : ¬ok → ∃ token parser, Yields call (token, parser) ∧ token.Failed

variable {f g : ℕ → Option (Token × TreeParser)} {ok ok' : Prop} {ts rest rest' : List LexerToken}
  {lt : LexerToken} {node node' : Node} {count count' : ℕ} {parser : TreeParser} {token : Token}

theorem Parses.succ (hfg : ∀ fuel, f (fuel + 1) = g fuel) (h : Parses g ok rest node count) :
    Parses f ok rest node count := by
  constructor
  · intro hok
    obtain ⟨parser, hyields, hholds⟩ := h.accepts hok
    exact ⟨parser, hyields.succ hfg, hholds⟩
  · intro hok
    obtain ⟨token, parser, hyields, hfailed⟩ := h.refuses hok
    exact ⟨token, parser, hyields.succ hfg, hfailed⟩

/-- A call is what it unfolds to with one unit of fuel less. -/
theorem Parses.unroll (h : Parses (fun fuel => f (fuel + 1)) ok rest node count) :
    Parses f ok rest node count :=
  h.succ fun _ => rfl

theorem Parses.congr (hfg : ∀ fuel, f fuel = g fuel) (h : Parses g ok rest node count) :
    Parses f ok rest node count := by
  have heq : f = g := funext hfg
  exact heq ▸ h

theorem Parses.of_iff (h : Parses f ok rest node count) (hok : ok ↔ ok') :
    Parses f ok' rest node count := by
  rwa [← propext hok]

/-- A call that returns with the parser as it is. -/
theorem TreeParser.Holds.parses (h : parser.Holds rest node count)
    (hf : ∀ fuel, f fuel = some ((first rest).token, parser)) :
    Parses f True rest node count :=
  ⟨fun _ => ⟨parser, yields_of_forall hf, h⟩, fun hnot => absurd trivial hnot⟩

/-- A call that returns an error. -/
theorem parses_refused (hf : ∀ fuel, f fuel = some (token, parser)) (hfailed : token.Failed) :
    Parses f False rest node count :=
  ⟨fun hfalse => hfalse.elim, fun _ => ⟨token, parser, yields_of_forall hf, hfailed⟩⟩

/-- The next token. Behind a dot, a keyword is noticed. -/
theorem TreeParser.Holds.next_eq (h : parser.Holds (lt :: rest) node count) :
    ∃ parser', parser.next = some ((first rest).token, parser') ∧
      parser'.Holds rest node count ∧
      (lt.token = .dot → (rest.headD endToken).token = .name → (first rest).token ≠ .name →
        parser'.lexer.keyword = true) := by
  obtain ⟨lexer, hlexer, hat, hkeyword⟩ := parserToken_at h.position.before h.position.current
  refine ⟨{ parser with lexer }, ?_, ⟨hat, h.node, h.count⟩, fun hdot =>
    hkeyword (h.position.dot hdot)⟩
  rw [TreeParser.next, hlexer]
  rfl

/-- The next token. -/
theorem TreeParser.Holds.next (h : parser.Holds (lt :: rest) node count) :
    Parses (fun _ => parser.next) True rest node count := by
  obtain ⟨parser', hnext, hparser', -⟩ := h.next_eq
  exact hparser'.parses fun _ => hnext

theorem proceed_eq (result : Option (Token × TreeParser)) (k : Parse) :
    proceed result k =
      result >>= fun x => if x.1.Failed then some x else k x.2 x.1 := rfl

theorem proceed_assoc (result : Option (Token × TreeParser)) (k k' : Parse) :
    proceed (proceed result k) k' = proceed result fun parser token =>
      proceed (k parser token) k' := by
  cases result with
  | none => rfl
  | some x =>
    by_cases hfailed : x.1.Failed
    · simp [proceed_eq, hfailed]
    · simp [proceed_eq, hfailed]

/-- A call and then another one, which gets what the first one leaves. -/
theorem Parses.proceed {k : ℕ → Parse} (hf : Parses f ok rest node count)
    (hk : ok → ∀ parser, parser.Holds rest node count →
      Parses (fun fuel => k fuel parser (first rest).token) ok' rest' node' count') :
    Parses (fun fuel => proceed (f fuel) (k fuel)) (ok ∧ ok') rest' node' count' := by
  have hbind {token : Token} {parser : TreeParser} {r : Token × TreeParser}
      (hyields : Yields f (token, parser)) (hr : Yields (fun fuel => if token.Failed then
        some (token, parser) else k fuel parser token) r) :
      Yields (fun fuel => Parsing.proceed (f fuel) (k fuel)) r := by
    simp only [proceed_eq]
    exact hyields.bind hr
  have hsecond {parser : TreeParser} {r : Token × TreeParser}
      (hyields : Yields f ((first rest).token, parser)) (hholds : parser.Holds rest node count)
      (hr : Yields (fun fuel => k fuel parser (first rest).token) r) :
      Yields (fun fuel => Parsing.proceed (f fuel) (k fuel)) r := by
    apply hbind hyields
    simpa only [if_neg (first_legal hholds.position.clean)] using hr
  constructor
  · rintro ⟨hok, hok'⟩
    obtain ⟨parser, hyields, hholds⟩ := hf.accepts hok
    obtain ⟨parser', hyields', hholds'⟩ := (hk hok parser hholds).accepts hok'
    exact ⟨parser', hsecond hyields hholds hyields', hholds'⟩
  · intro hnot
    by_cases hok : ok
    · obtain ⟨parser, hyields, hholds⟩ := hf.accepts hok
      obtain ⟨token, parser', hyields', hfailed⟩ :=
        (hk hok parser hholds).refuses fun hok' => hnot ⟨hok, hok'⟩
      exact ⟨token, parser', hsecond hyields hholds hyields', hfailed⟩
    · obtain ⟨token, parser, hyields, hfailed⟩ := hf.refuses hok
      refine ⟨token, parser, hbind hyields ?_, hfailed⟩
      simp only [if_pos hfailed]
      exact yields_of_forall fun _ => rfl

/-- A call that enters. The depth of the nested calls is limited. -/
theorem TreeParser.Holds.entered {call : ℕ → TreeParser → Option (Token × TreeParser)}
    (hparser : parser.Holds ts node count)
    (hcall : ∀ parser, parser.Holds ts node (count + 1) →
      Parses (fun fuel => call fuel parser) ok rest node' (count + 1)) :
    Parses (fun fuel => parser.entered (call fuel)) (count ≤ 4096 ∧ ok) rest node' count := by
  obtain ⟨hposition, hnode, rfl⟩ := hparser
  have h := hcall { parser with count := parser.count + 1 } ⟨hposition, hnode, rfl⟩
  by_cases hcount : parser.count > 4096
  · refine ⟨fun ⟨hle, _⟩ => absurd hcount (Nat.not_lt.mpr hle), fun _ => ?_⟩
    refine ⟨_, _, yields_of_forall fun fuel => if_pos hcount, by decide⟩
  · have hreturn {token : Token} {parser' : TreeParser}
        (hyields : Yields (fun fuel => call fuel { parser with count := parser.count + 1 })
          (token, parser')) :
        Yields (fun fuel => parser.entered (call fuel))
          (token, { parser' with count := parser'.count - 1 }) := by
      simp only [TreeParser.entered, if_neg hcount]
      exact hyields.bind (h := fun _ x => some (x.1, { x.2 with count := x.2.count - 1 }))
        (yields_of_forall fun _ => rfl)
    constructor
    · rintro ⟨-, hok⟩
      obtain ⟨parser', hyields, hholds⟩ := h.accepts hok
      refine ⟨_, hreturn hyields, hholds.position, hholds.node, ?_⟩
      simp [hholds.count]
    · intro hnot
      obtain ⟨token, parser', hyields, hfailed⟩ :=
        h.refuses fun hok => hnot ⟨Nat.not_lt.mp hcount, hok⟩
      exact ⟨token, _, hreturn hyields, hfailed⟩

/-! ## The levels -/

/-- The functions up to this level do not stop in front of the token. -/
def Token.level : Token → Option ℕ
  | .comma => some 0
  | .assignment | .additionAssignment | .substractionAssignment | .multiplicationAssignment
  | .exponentiationAssignment | .divisionAssignment | .remainderAssignment
  | .leftShiftAssignment | .rightShiftAssignment | .unsignedRightShiftAssignment
  | .bitwiseAndAssignment | .bitwiseXorAssignment | .bitwiseOrAssignment
  | .conditional => some 2
  | .logicalOr => some 3
  | .logicalAnd => some 4
  | .bitwiseOr => some 5
  | .bitwiseXor => some 6
  | .bitwiseAnd => some 7
  | .equal | .notEqual | .strictEqual | .strictNotEqual => some 8
  | .less | .lessOrEqual | .greater | .greaterOrEqual | .in | .instanceof => some 9
  | .leftShift | .rightShift | .unsignedRightShift => some 10
  | .addition | .substraction => some 11
  | .multiplication | .division | .remainder => some 12
  | .exponentiation => some 14
  | .increment | .decrement => some 15
  | .dot | .openBracket | .openParenthesis | .grave => some 16
  | _ => none

/-- The level of a descriptor. -/
def Expression.level : Expression → ℕ
  | .comma => 0
  | .logicalOr => 3
  | .logicalAnd => 4
  | .bitwiseOr => 5
  | .bitwiseXor => 6
  | .bitwiseAnd => 7
  | .equality => 8
  | .relational => 9
  | .bitwiseShift => 10
  | .addition => 11
  | .factor => 12

/-- A function of level `k` stops in front of the tokens. -/
def Follow (k : ℕ) (ts : List LexerToken) : Prop := ∀ l ∈ (first ts).token.level, l < k

variable {k l : ℕ} {els : Elsewhere} {expr : Expression}

theorem Follow.mono (h : Follow k ts) (hk : k ≤ l) : Follow l ts :=
  fun m hm => lt_of_lt_of_le (h m hm) hk

theorem Follow.ne (h : Follow k ts) (token : Token) (hl : token.level = some l) (hk : k ≤ l) :
    (first ts).token ≠ token := by
  rintro rfl
  exact absurd (h l hl) (Nat.not_lt.mpr hk)

theorem follow_of_none (h : (first ts).token.level = none) : Follow k ts := by
  intro l hl
  simp [h] at hl

theorem follow_of_some (h : (first ts).token.level = some l) (hk : l < k) : Follow k ts := by
  intro m hm
  obtain rfl : l = m := by simpa [h] using hm
  exact hk

/-- No operator has the level of the assignment expressions. -/
theorem Follow.one (h : Follow 2 ts) : Follow 1 ts := by
  have hlevel : ∀ token : Token, token.level ≠ some 1 := by
    intro token
    cases token <;> simp [Token.level]
  intro l hl
  have hle := h l hl
  have hne : l ≠ 1 := by
    rintro rfl
    exact hlevel _ hl
  omega

theorem op_level : ∀ expr : Expression, ∀ entry ∈ expr.op, entry.1.level = some expr.level := by
  intro expr
  cases expr <;> simp [Expression.op, Token.level, Expression.level]

theorem operation_level {operation : Operation} (h : expr.operation token = some operation) :
    token.level = some expr.level := by
  obtain ⟨l₁, l₂, hop, -⟩ := List.lookup_eq_some_iff.mp h
  apply op_level expr (token, operation)
  simp [hop]

theorem operation_eq_none (h : Follow expr.level ts) :
    expr.operation (first ts).token = none := by
  rw [Expression.operation, List.lookup_eq_none_iff]
  intro entry hentry
  simpa using h.ne _ (op_level expr entry hentry) (le_refl _)

theorem assignmentOperation_level {operation : Operation}
    (h : assignmentOperation token = some operation) : token.level = some 2 := by
  revert h
  cases token <;> simp [assignmentOperation, Token.level]

theorem assignmentOperation_eq_none (h : Follow 2 ts) :
    assignmentOperation (first ts).token = none := by
  cases hoperation : assignmentOperation (first ts).token with
  | none => rfl
  | some operation => exact absurd rfl (h.ne _ (assignmentOperation_level hoperation) (le_refl 2))

theorem postOperation_eq_none (h : Follow 15 ts) : postOperation (first ts).token = none := by
  have hlevel : ∀ token, postOperation token ≠ none → token.level = some 15 := by
    intro token
    cases token <;> simp [postOperation, Token.level]
  by_contra hsome
  exact h.ne _ (hlevel _ hsome) (le_refl 15) rfl

/-- The function of a level. -/
def levelParse (els : Elsewhere) (fuel : ℕ) : ℕ → Parse
  | 0 => binaryExpression els fuel .comma
  | 1 => assignmentExpression els fuel
  | 2 => conditionalExpression els fuel
  | 3 => binaryExpression els fuel .logicalOr
  | 4 => binaryExpression els fuel .logicalAnd
  | 5 => binaryExpression els fuel .bitwiseOr
  | 6 => binaryExpression els fuel .bitwiseXor
  | 7 => binaryExpression els fuel .bitwiseAnd
  | 8 => binaryExpression els fuel .equality
  | 9 => binaryExpression els fuel .relational
  | 10 => binaryExpression els fuel .bitwiseShift
  | 11 => binaryExpression els fuel .addition
  | 12 => binaryExpression els fuel .factor
  | 13 => exponentialExpression els fuel
  | 14 => unaryExpression els fuel
  | 15 => incDecExpression els fuel
  | _ => callExpression els fuel

theorem levelParse_level (els : Elsewhere) (fuel : ℕ) (expr : Expression) :
    levelParse els fuel expr.level = binaryExpression els fuel expr := by
  cases expr <;> rfl

/-- A descriptor leads to the next level. -/
theorem nextExpression_eq (els : Elsewhere) (fuel : ℕ) (expr : Expression) :
    nextExpression els (fuel + 1) expr.next = levelParse els fuel (expr.level + 1) := by
  cases expr <;> rfl

/-! ## What a level reads -/

section

variable (els)

/-- The function of level `k` takes the tokens, whatever follows that it stops in front of. -/
def Reads (k : ℕ) (ts : List LexerToken) (ok : Prop) (depth : ℕ) (result : Node) : Prop :=
  ∀ (parser : TreeParser) rest node count, parser.Holds (ts ++ rest) node count →
    Follow k rest → Parses (fun fuel => levelParse els fuel k parser (first (ts ++ rest)).token)
      (ok ∧ count + depth ≤ 4097) rest result count

/-- The call and the loop behind it take what the call and so many rounds of the loop take, and
then what the loop goes on with. -/
def Enters (call : ℕ → Option (Token × TreeParser)) (loop : ℕ → Parse) (ok : Prop)
    (rest : List LexerToken) (result : Node) (count : ℕ) : Prop :=
  ∀ ok' rest' result', (∀ parser : TreeParser, parser.Holds rest result count →
      Parses (fun fuel => loop fuel parser (first rest).token) ok' rest' result' count) →
    Parses (fun fuel => proceed (call fuel) (loop fuel)) (ok ∧ ok') rest' result' count

/-- `njs_parser_binary_expression` takes the tokens and goes on with its loop. -/
def ReadsLoop (expr : Expression) (ts : List LexerToken) (ok : Prop) (depth : ℕ)
    (result : Node) : Prop :=
  ∀ (parser : TreeParser) rest node count, parser.Holds (ts ++ rest) node count →
    Follow (expr.level + 1) rest →
      Enters (fun fuel => nextExpression els fuel expr.next parser (first (ts ++ rest)).token)
        (fun fuel => binaryLoop els fuel expr) (ok ∧ count + depth ≤ 4097) rest result count

/-- `njs_parser_call_expression` takes the tokens and goes on with
`njs_parser_property_expression`. -/
def ReadsCall (ts : List LexerToken) (ok : Prop) (depth : ℕ) (result : Node) : Prop :=
  ∀ (parser : TreeParser) rest node count, parser.Holds (ts ++ rest) node count →
    Enters (fun fuel => parser.entered fun parser => terminal els (fuel + 1) parser
        (first (ts ++ rest)).token)
      (fun fuel => propertyExpression els fuel) (ok ∧ count + depth ≤ 4097) rest result count

end

/-- The tokens start with none that a level below `k` would take for an operator. -/
structure Starts (k : ℕ) (ts : List LexerToken) : Prop where
  ne_nil : ts ≠ []
  unary : 15 ≤ k → unaryOperation (first ts).token = none
  incDec : 16 ≤ k → incDecOperation (first ts).token = none
  new : 16 ≤ k → (first ts).token ≠ .new

variable {depth : ℕ} {result : Node}

theorem first_append (h : ts ≠ []) : first (ts ++ rest) = first ts := by
  cases ts with
  | nil => exact absurd rfl h
  | cons lt ts => rfl

/-- A call in front of a loop takes no round of it. -/
theorem Parses.enters {loop : ℕ → Parse} (h : Parses f ok rest node count) :
    Enters f loop ok rest node count :=
  fun _ _ _ hloop => h.proceed fun _ => hloop

/-- What the next level reads is read by a call without a round of the loop. -/
theorem Reads.readsLoop (h : Reads els (expr.level + 1) ts ok depth result) :
    ReadsLoop els expr ts ok depth result := by
  intro parser rest node count hparser hfollow
  apply Parses.enters
  apply Parses.succ fun fuel => congrFun (congrFun (nextExpression_eq els fuel expr) _) _
  exact h parser rest node count hparser hfollow

/-- The loop stops where no operator of the descriptor follows. -/
theorem ReadsLoop.reads (h : ReadsLoop els expr ts ok depth result) :
    Reads els expr.level ts ok depth result := by
  intro parser rest node count hparser hfollow
  have hloop (parser : TreeParser) (hparser : parser.Holds rest result count) :
      Parses (fun fuel => binaryLoop els fuel expr parser (first rest).token) True rest result
        count := by
    apply Parses.succ (g := fun _ => some ((first rest).token, parser))
    · intro fuel
      rw [binaryLoop, operation_eq_none hfollow]
    · exact hparser.parses fun _ => rfl
  have hcall := h parser rest node count hparser (hfollow.mono (Nat.le_succ _)) _ _ _ hloop
  rw [and_true] at hcall
  apply Parses.succ _ hcall
  intro fuel
  rw [levelParse_level]
  rfl

/-- `njs_parser_conditional_expression` takes what the level above takes, where no question mark
follows. An assignment may follow. -/
theorem Reads.conditional (h : Reads els 3 ts ok depth result)
    (hparser : parser.Holds (ts ++ rest) node count) (hfollow : Follow 3 rest)
    (hconditional : (first rest).token ≠ .conditional) :
    Parses (fun fuel => conditionalExpression els fuel parser (first (ts ++ rest)).token)
      (ok ∧ count + depth ≤ 4097) rest result count := by
  have hloop (parser : TreeParser) (hparser : parser.Holds rest result count) :
      Parses (fun fuel => conditionalLoop els fuel parser (first rest).token) True rest result
        count := by
    apply Parses.succ (g := fun _ => some ((first rest).token, parser))
    · intro fuel
      rw [conditionalLoop, if_pos hconditional]
    · exact hparser.parses fun _ => rfl
  have hcall := (h parser rest node count hparser hfollow).proceed fun _ => hloop
  rw [and_true] at hcall
  exact hcall.succ fun fuel => rfl

theorem Reads.two (h : Reads els 3 ts ok depth result) : Reads els 2 ts ok depth result := by
  intro parser rest node count hparser hfollow
  exact h.conditional hparser (hfollow.mono (by decide)) (hfollow.ne _ rfl (le_refl 2))

/-- `njs_parser_assignment_expression` enters. -/
theorem Reads.one (h : Reads els 2 ts ok depth result) :
    Reads els 1 ts ok (1 + depth) result := by
  intro parser rest node count hparser hfollow
  have hfollow' : Follow 2 rest := hfollow.mono (by decide)
  have hloop (parser : TreeParser) (hparser : parser.Holds rest result count) :
      Parses (fun fuel => assignmentLoop els fuel parser (first rest).token) True rest result
        count := by
    apply Parses.succ (g := fun _ => some ((first rest).token, parser))
    · intro fuel
      rw [assignmentLoop, assignmentOperation_eq_none hfollow']
    · exact hparser.parses fun _ => rfl
  have hcall := (hparser.entered fun parser hparser =>
    h parser rest node (count + 1) hparser hfollow').proceed fun _ => hloop
  apply Parses.of_iff (hcall.succ fun fuel => rfl)
  rw [and_true]
  constructor
  · rintro ⟨hcount, hok, hdepth⟩
    exact ⟨hok, by omega⟩
  · rintro ⟨hok, hdepth⟩
    exact ⟨by omega, hok, by omega⟩

theorem Reads.thirteen (h : Reads els 14 ts ok depth result) :
    Reads els 13 ts ok depth result := by
  intro parser rest node count hparser hfollow
  have hne : (first rest).token ≠ .exponentiation := hfollow.ne _ rfl (by decide)
  apply Parses.unroll
  simp only [levelParse, exponentialExpression]
  apply Parses.of_iff _ (iff_of_eq (and_true _))
  apply (h parser rest node count hparser (hfollow.mono (by decide))).proceed
  intro _ parser hparser
  exact hparser.parses fun _ => if_neg hne

/-- `njs_parser_unary_expression` takes what the level above takes. An exponentiation may
follow. -/
theorem Reads.unary (h : Reads els 15 ts ok depth result) (hstarts : Starts 15 ts)
    (hparser : parser.Holds (ts ++ rest) node count) (hfollow : Follow 15 rest) :
    Parses (fun fuel => unaryExpression els fuel parser (first (ts ++ rest)).token)
      (ok ∧ count + depth ≤ 4097) rest result count := by
  apply Parses.succ _ (h parser rest node count hparser hfollow)
  intro fuel
  rw [first_append hstarts.ne_nil, unaryExpression, hstarts.unary (le_refl 15)]
  rfl

theorem Reads.fourteen (h : Reads els 15 ts ok depth result) (hstarts : Starts 15 ts) :
    Reads els 14 ts ok depth result := by
  intro parser rest node count hparser hfollow
  exact h.unary hstarts hparser (hfollow.mono (by decide))

theorem Reads.fifteen (h : Reads els 16 ts ok depth result) (hstarts : Starts 16 ts) :
    Reads els 15 ts ok depth result := by
  intro parser rest node count hparser hfollow
  apply Parses.unroll
  simp only [levelParse, incDecExpression, first_append hstarts.ne_nil,
    hstarts.incDec (le_refl 16)]
  apply Parses.unroll
  simp only [postIncDecExpression]
  apply Parses.of_iff _ (iff_of_eq (and_true _))
  rw [← first_append hstarts.ne_nil]
  apply (h parser rest node count hparser (hfollow.mono (by decide))).proceed
  intro _ parser hparser
  apply hparser.parses
  intro _
  rw [postOperation_eq_none hfollow]

/-- Neither a property nor a call follows. -/
theorem ReadsCall.reads (h : ReadsCall els ts ok depth result) (hstarts : Starts 16 ts) :
    Reads els 16 ts ok depth result := by
  intro parser rest node count hparser hfollow
  have hloop (parser : TreeParser) (hparser : parser.Holds rest result count) :
      Parses (fun fuel => propertyExpression els fuel parser (first rest).token) True rest result
        count := by
    apply Parses.unroll
    simp only [propertyExpression, if_neg (hfollow.ne .dot rfl (le_refl 16)),
      if_neg (hfollow.ne .openBracket rfl (le_refl 16))]
    exact hparser.parses fun _ => rfl
  have hcall := h parser rest node count hparser _ _ _ hloop
  rw [and_true] at hcall
  apply Parses.unroll
  apply Parses.unroll
  have hnew : (first (ts ++ rest)).token ≠ .new := by
    rw [first_append hstarts.ne_nil]
    exact hstarts.new (le_refl 16)
  simp only [levelParse, callExpression, callLoop, if_neg hnew, ← proceed_assoc]
  apply Parses.of_iff _ (iff_of_eq (and_true _))
  apply hcall.proceed
  intro _ parser hparser
  apply hparser.parses
  intro _
  rw [if_pos]
  exact ⟨hfollow.ne _ rfl (le_refl 16), hfollow.ne _ rfl (le_refl 16)⟩

theorem Starts.mono (h : Starts l ts) (hk : k ≤ l) : Starts k ts :=
  ⟨h.ne_nil, fun hle => h.unary (hle.trans hk), fun hle => h.incDec (hle.trans hk),
    fun hle => h.new (hle.trans hk)⟩

/-- Every level up to the exponentiation but for two has a descriptor. -/
theorem exists_level (hk : k < 13) (hone : k ≠ 1) (htwo : k ≠ 2) :
    ∃ expr : Expression, expr.level = k := by
  interval_cases k
  · exact ⟨.comma, rfl⟩
  · exact absurd rfl hone
  · exact absurd rfl htwo
  · exact ⟨.logicalOr, rfl⟩
  · exact ⟨.logicalAnd, rfl⟩
  · exact ⟨.bitwiseOr, rfl⟩
  · exact ⟨.bitwiseXor, rfl⟩
  · exact ⟨.bitwiseAnd, rfl⟩
  · exact ⟨.equality, rfl⟩
  · exact ⟨.relational, rfl⟩
  · exact ⟨.bitwiseShift, rfl⟩
  · exact ⟨.addition, rfl⟩
  · exact ⟨.factor, rfl⟩

/-- What a level reads is read by the level below. -/
theorem Reads.step (h : Reads els (k + 1) ts ok depth result) (hk : k < 16)
    (hstarts : Starts (k + 1) ts) :
    Reads els k ts ok ((if k = 1 then 1 else 0) + depth) result := by
  by_cases hone : k = 1
  · subst hone
    exact h.one
  · rw [if_neg hone, Nat.zero_add]
    by_cases hlow : k < 13
    · by_cases htwo : k = 2
      · subst htwo
        exact h.two
      · obtain ⟨expr, rfl⟩ := exists_level hlow hone htwo
        exact h.readsLoop.reads
    · obtain rfl | rfl | rfl : k = 13 ∨ k = 14 ∨ k = 15 := by omega
      · exact h.thirteen
      · exact h.fourteen hstarts
      · exact h.fifteen hstarts

end Njs.Parsing
