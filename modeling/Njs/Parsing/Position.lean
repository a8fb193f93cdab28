import Njs.Parsing.ArrowFunctions
import Njs.Parsing.Expressions

/-!
# The position of the parser

Where a script has no line ends and no arrows, a lexer that has returned the first tokens of a
sequence returns the next one, and looking ahead for an arrow function finds nothing.
-/

namespace Njs.Parsing

/-- A token that is no line end, no arrow and no error. -/
structure LexerToken.Clean (lt : LexerToken) : Prop where
  lineEnd : lt.resolve.token ≠ .lineEnd
  arrow : lt.resolve.token ≠ .arrow
  legal : ¬lt.resolve.token.Failed

/-- The first token of a sequence, as it is returned. -/
def first (ts : List LexerToken) : LexerToken := (ts.headD endToken).resolve

/-- The tokens of the sequence are to come. -/
structure Lexer.Before (lexer : Lexer) (ts : List LexerToken) : Prop where
  clean : ∀ lt ∈ ts, lt.Clean
  upcoming : ∀ i, lexer.upcoming i = (ts.getD i endToken).resolve
  fresh : lexer.Fresh ts
  dotLast : lexer.DotLast

/-- The first token of the sequence was returned last, and the others are to come. Behind a dot,
nothing was read ahead. -/
structure Lexer.At (lexer : Lexer) (ts : List LexerToken) : Prop where
  clean : ∀ lt ∈ ts, lt.Clean
  lexerToken : lexer.lexerToken = some (first ts)
  prevToken : lexer.prevToken ≠ .lineEnd
  before : lexer.Before ts.tail
  dot : (ts.headD endToken).token = .dot → lexer.preread = []

variable {lexer lexer' : Lexer} {ts us : List LexerToken} {lt : LexerToken}

theorem endToken_clean : endToken.Clean := by
  constructor
  · rw [resolve_endToken]
    decide
  · rw [resolve_endToken]
    decide
  · rw [resolve_endToken]
    decide

theorem getD_clean (h : ∀ lt ∈ ts, lt.Clean) (i : ℕ) : (ts.getD i endToken).Clean := by
  rw [List.getD_eq_getElem?_getD]
  cases hi : ts[i]? with
  | none => exact endToken_clean
  | some lt => exact h lt (List.mem_of_getElem? hi)

theorem first_eq_getD (ts : List LexerToken) : first ts = (ts.getD 0 endToken).resolve := by
  cases ts <;> rfl

theorem first_legal (h : ∀ lt ∈ ts, lt.Clean) : ¬(first ts).token.Failed := by
  rw [first_eq_getD]
  exact (getD_clean h 0).legal

theorem init_before (h : ∀ lt ∈ ts, lt.Clean) : (Lexer.init ts).Before ts := by
  constructor
  · exact h
  · intro i
    simp only [Lexer.upcoming, Lexer.pending, Lexer.init, List.nil_append,
      List.getD_eq_getElem?_getD, List.getElem?_map]
    cases ts[i]? with
    | none => exact resolve_endToken.symm
    | some lt => rfl
  · simp [Lexer.Fresh, Lexer.init]
  · simp [Lexer.DotLast, Lexer.init]

/-! ## The next token -/

theorem tokenNameResolve_queue (lexer : Lexer) (lt : LexerToken) :
    (lexer.tokenNameResolve lt).2.preread = lexer.preread ∧
      (lexer.tokenNameResolve lt).2.rest = lexer.rest := by
  obtain ⟨keyword, h⟩ := tokenNameResolve_eq lexer lt
  rw [h]
  exact ⟨rfl, rfl⟩

/-- A token is taken from the queue, or from the text if the queue is empty. -/
theorem lexerToken_queue (lexer : Lexer) :
    (lexerToken lexer).2.preread = lexer.preread.tail ∧
      (lexerToken lexer).2.rest =
        if lexer.preread = [] then lexer.rest.tail else lexer.rest := by
  obtain ⟨current, preread, keyword, prevToken, rest⟩ := lexer
  cases preread with
  | cons lt preread => exact tokenNameResolve_queue _ _
  | nil =>
    rw [if_pos rfl]
    have hresolve (rest : List LexerToken) (lt : LexerToken) := tokenNameResolve_queue
      ⟨current, [], keyword, current.elim prevToken LexerToken.token, rest⟩ lt
    cases rest with
    | nil => exact hresolve [] endToken
    | cons lt rest => exact hresolve rest lt

theorem lexerToken_fresh (h : lexer.Fresh ts) : (lexerToken lexer).2.Fresh ts.tail := by
  obtain ⟨hpreread, hrest⟩ := lexerToken_queue lexer
  unfold Lexer.Fresh at h ⊢
  rw [hpreread, hrest, h]
  split_ifs with hempty
  · simp [hempty]
  · have hpos := List.length_pos_iff.mpr hempty
    have hlength : lexer.preread.length = 1 + (lexer.preread.length - 1) := by omega
    rw [List.length_tail, ← List.drop_one, List.drop_drop, ← hlength]

theorem lexerToken_dotLast (h : lexer.DotLast) : (lexerToken lexer).2.DotLast := by
  intro lt hmem
  rw [(lexerToken_queue lexer).1, ← List.tail_dropLast] at hmem
  exact h lt (List.mem_of_mem_tail hmem)

/-- Behind a dot the queue is empty. -/
theorem lexerToken_dot (hbefore : lexer.Before ts) (hdot : (ts.headD endToken).token = .dot) :
    (lexerToken lexer).2.preread = [] := by
  rw [(lexerToken_queue lexer).1]
  cases hpreread : lexer.preread with
  | nil => rfl
  | cons lt preread =>
    have hfirst : lt.resolve = (ts.headD endToken).resolve := by
      have hupcoming : lexer.upcoming 0 = first ts :=
        (hbefore.upcoming 0).trans (first_eq_getD ts).symm
      rwa [Lexer.upcoming, Lexer.pending, hpreread] at hupcoming
    have hlt : lt.token = .dot := by
      apply resolve_dot
      rw [hfirst, resolve_of_ne (by rw [hdot]; decide), hdot]
    cases preread with
    | nil => rfl
    | cons lt' preread =>
      have hmem : lt ∈ lexer.preread.dropLast := by simp [hpreread]
      exact absurd hlt (hbefore.dotLast lt hmem)

/-- A name is returned as a name or as a keyword, if it was not read ahead. -/
theorem lexerToken_keyword (hfresh : lexer.Fresh ts) (hempty : lexer.preread = [])
    (hname : (ts.headD endToken).token = .name) (hkeyword : (lexerToken lexer).1 ≠ .name) :
    (lexerToken lexer).2.keyword = true := by
  obtain ⟨current, preread, keyword, prevToken, rest⟩ := lexer
  obtain rfl : preread = [] := hempty
  obtain rfl : rest = ts := by simpa [Lexer.Fresh] using hfresh
  cases rest with
  | nil => simp [endToken] at hname
  | cons lt rest =>
    have hlt : lt.token = .name := hname
    have htoken : lexerToken ⟨current, [], keyword, prevToken, lt :: rest⟩ =
        ((lexerKeyword lt).1.token,
          ⟨some (lexerKeyword lt).1, [], (lexerKeyword lt).2,
            current.elim prevToken LexerToken.token, rest⟩) := by
      simp [lexerToken, Lexer.tokenPush, Lexer.nextToken, Lexer.tokenPop,
        Lexer.tokenNameResolve, hlt]
    rw [htoken] at hkeyword ⊢
    unfold lexerKeyword at hkeyword ⊢
    cases hfind : findKeyword lt.text with
    | none => simp [hfind, hlt] at hkeyword
    | some found => rfl

/-- The lexer returns the first of the tokens. -/
theorem parserToken_at (h : lexer.Before ts) (hline : lexer.current ≠ .lineEnd) :
    ∃ lexer', parserToken lexer = some ((first ts).token, lexer') ∧ lexer'.At ts ∧
      (lexer.preread = [] → (ts.headD endToken).token = .name → (first ts).token ≠ .name →
        lexer'.keyword = true) := by
  obtain ⟨lexer', htoken, hcurrent, hpending, hprev⟩ := lexerToken_eq lexer
  have hfirst : lexer.pending.headD endToken = first ts := by
    rw [first_eq_getD, ← h.upcoming 0, Lexer.upcoming]
    cases lexer.pending <;> rfl
  rw [hfirst] at htoken hcurrent
  obtain rfl : (lexerToken lexer).2 = lexer' := by rw [htoken]
  have hclean := getD_clean h.clean 0
  refine ⟨(lexerToken lexer).2, ?_, ⟨h.clean, hcurrent, ?_, ⟨?_, ?_, ?_, ?_⟩, ?_⟩, ?_⟩
  · have hnot : (first ts).token ≠ .lineEnd := by
      rw [first_eq_getD]
      exact hclean.lineEnd
    rw [parserToken, tokenLoop, htoken]
    simp [hnot]
  · rw [hprev]
    exact hline
  · intro lt hmem
    exact h.clean lt (List.mem_of_mem_tail hmem)
  · intro i
    have hnext := h.upcoming (i + 1)
    simp only [Lexer.upcoming, List.getD_eq_getElem?_getD] at hnext ⊢
    rw [hpending, List.getElem?_tail, hnext, List.getElem?_tail]
  · exact lexerToken_fresh h.fresh
  · exact lexerToken_dotLast h.dotLast
  · exact lexerToken_dot h
  · intro hempty hname hkeyword
    apply lexerToken_keyword h.fresh hempty hname
    rw [htoken]
    exact hkeyword

theorem Lexer.At.current (h : lexer.At ts) : lexer.current ≠ .lineEnd := by
  rw [Lexer.current, h.lexerToken, first_eq_getD]
  exact (getD_clean h.clean 0).lineEnd

/-! ## Looking ahead -/

theorem Lexer.At.lookAhead (h : lexer.At ts) (hdot : (ts.headD endToken).token ≠ .dot)
    (hahead : lexer.LooksAhead lexer') : lexer'.At ts := by
  refine ⟨h.clean, ?_, ?_, ⟨h.before.clean, ?_, ?_, ?_⟩, ?_⟩
  · rw [hahead.lexerToken]
    exact h.lexerToken
  · rw [hahead.prevToken]
    exact h.prevToken
  · intro i
    rw [hahead.upcoming]
    exact h.before.upcoming i
  · exact hahead.fresh _ h.before.fresh
  · exact hahead.dotLast h.before.dotLast
  · exact fun hdot' => absurd hdot' hdot

theorem Lexer.Before.mem_pending (h : lexer.Before ts) (hmem : lt ∈ lexer.pending) :
    lt.token ≠ .arrow ∧ lt.token ≠ .illegal := by
  obtain ⟨i, hi, rfl⟩ := List.getElem_of_mem hmem
  have hupcoming := h.upcoming i
  have hclean := getD_clean h.clean i
  rw [Lexer.upcoming, List.getD_eq_getElem?_getD, List.getElem?_eq_getElem hi,
    Option.getD_some] at hupcoming
  rw [hupcoming]
  refine ⟨hclean.arrow, fun hillegal => hclean.legal ?_⟩
  rw [hillegal]
  decide

theorem mem_of_mem_skip (h : lt ∈ skip ts) : lt ∈ ts :=
  (List.dropWhile_suffix _).subset h

theorem mem_of_comma {comma : Bool} (h : Comma comma ts us) (hmem : lt ∈ us) : lt ∈ ts := by
  cases comma with
  | true =>
    obtain ⟨c, -, hskip⟩ := h
    apply mem_of_mem_skip
    rw [hskip]
    exact List.mem_cons_of_mem c hmem
  | false =>
    obtain rfl : us = ts := h
    exact hmem

theorem not_arrowNext (h : ∀ lt ∈ ts, lt.token ≠ .arrow) : ¬ArrowNext ts := by
  rintro ⟨a, us, hskip, harrow⟩
  apply h a _ harrow
  apply mem_of_mem_skip
  rw [hskip]
  exact List.mem_cons_self

theorem Parameters.Spelled.mem_tail {ps : Parameters} (h : ps.Spelled us ts) (hmem : lt ∈ us) :
    lt ∈ ts := by
  induction h with
  | close hts hclose =>
    apply mem_of_mem_skip
    rw [hts]
    exact List.mem_cons_of_mem _ hmem
  | rest hts hellipsis hus hname hcomma hnil ih =>
    apply mem_of_mem_skip
    rw [hts]
    apply List.mem_cons_of_mem
    apply mem_of_mem_skip
    rw [hus]
    exact List.mem_cons_of_mem _ (mem_of_comma hcomma ih)
  | cons hts hname hcomma hps ih =>
    apply mem_of_mem_skip
    rw [hts]
    exact List.mem_cons_of_mem _ (mem_of_comma hcomma ih)

theorem Broken.exists_illegal (h : Broken ts) : ∃ lt ∈ ts, lt.token = .illegal := by
  induction h with
  | name hts hname hus hillegal =>
    refine ⟨_, ?_, hillegal⟩
    apply mem_of_mem_skip
    rw [hts]
    apply List.mem_cons_of_mem
    apply mem_of_mem_skip
    rw [hus]
    exact List.mem_cons_self
  | rest hts hellipsis hus hname hvs hillegal =>
    refine ⟨_, ?_, hillegal⟩
    apply mem_of_mem_skip
    rw [hts]
    apply List.mem_cons_of_mem
    apply mem_of_mem_skip
    rw [hus]
    apply List.mem_cons_of_mem
    apply mem_of_mem_skip
    rw [hvs]
    exact List.mem_cons_self
  | cons hts hname hcomma hvs ih =>
    obtain ⟨lt, hmem, hillegal⟩ := ih
    refine ⟨lt, ?_, hillegal⟩
    apply mem_of_mem_skip
    rw [hts]
    exact List.mem_cons_of_mem _ (mem_of_comma hcomma hmem)

/-- Without an arrow no arrow function is found. -/
theorem Lexer.At.matchArrowExpression (h : lexer.At ts)
    (hdot : (ts.headD endToken).token ≠ .dot) : ∃ code lexer',
    matchArrowExpression lexer (first ts).token = some (code, lexer') ∧ code ≠ njsOk ∧
      lexer'.At ts := by
  obtain ⟨code, lexer', hrun, hahead, hiff⟩ := matchArrowExpression_found lexer (first ts)
  refine ⟨code, lexer', hrun, ?_, h.lookAhead hdot hahead⟩
  have hclean (lt : LexerToken) := @Lexer.Before.mem_pending _ _ lt h.before
  rw [Ne, hiff]
  rintro (⟨-, -, harrow⟩ | ⟨-, ⟨ps, tail, hspelled, -, harrow⟩ | hbroken⟩)
  · exact not_arrowNext (fun lt hmem => (hclean lt hmem).1) harrow
  · exact not_arrowNext (fun lt hmem => (hclean lt (hspelled.mem_tail hmem)).1) harrow
  · obtain ⟨lt, hmem, hillegal⟩ := hbroken.exists_illegal
    exact (hclean lt hmem).2 hillegal

end Njs.Parsing
