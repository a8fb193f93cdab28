import Njs.Parsing.Lexer

/-!
# The tokens to come

What the lexer returns is determined by the tokens that are pending, whether they were read
ahead or not. Looking ahead moves tokens to the queue and changes nothing else.
-/

namespace Njs.Parsing

/-- A token as it is returned: a name that is a keyword is replaced. -/
def LexerToken.resolve (lt : LexerToken) : LexerToken :=
  if lt.token = .name then (lexerKeyword lt).1 else lt

/-- Looking ahead does not go beyond these tokens: `njs_lexer_peek_token` stops at the first two,
and no caller goes on behind a dot. -/
def Token.Stop (t : Token) : Prop := t = .division ∨ t = .end ∨ t = .dot

/-- The tokens that are still to be returned. -/
def Lexer.pending (lexer : Lexer) : List LexerToken :=
  (lexer.preread ++ lexer.rest).map LexerToken.resolve

/-- The `i`-th of the tokens to come. After the last one there are only ends. -/
def Lexer.upcoming (lexer : Lexer) (i : ℕ) : LexerToken := lexer.pending.getD i endToken

/-- The token that was returned last. -/
def Lexer.current (lexer : Lexer) : Token := lexer.lexerToken.elim lexer.prevToken LexerToken.token

/-- Both have returned the same tokens and will return the same ones. -/
structure Lexer.SamePosition (lexer lexer' : Lexer) : Prop where
  lexerToken : lexer'.lexerToken = lexer.lexerToken
  prevToken : lexer'.prevToken = lexer.prevToken
  upcoming : lexer'.upcoming = lexer.upcoming

theorem Lexer.SamePosition.refl (lexer : Lexer) : lexer.SamePosition lexer := ⟨rfl, rfl, rfl⟩

theorem Lexer.SamePosition.trans {a b c : Lexer} (h : a.SamePosition b) (h' : b.SamePosition c) :
    a.SamePosition c :=
  ⟨h'.lexerToken.trans h.lexerToken, h'.prevToken.trans h.prevToken,
    h'.upcoming.trans h.upcoming⟩

/-- In the queue, nothing stands behind a dot. -/
def Lexer.DotLast (lexer : Lexer) : Prop := ∀ lt ∈ lexer.preread.dropLast, lt.token ≠ .dot

/-- The tokens behind the queue are those of the sequence, as they were cut out of the text. -/
def Lexer.Fresh (lexer : Lexer) (ts : List LexerToken) : Prop :=
  lexer.rest = ts.drop lexer.preread.length

/-- Only tokens that looking ahead may read were moved to the queue. -/
structure Lexer.LooksAhead (lexer lexer' : Lexer) : Prop extends
    Lexer.SamePosition lexer lexer' where
  dotLast : lexer.DotLast → lexer'.DotLast
  fresh : ∀ ts, lexer.Fresh ts → lexer'.Fresh ts

theorem Lexer.LooksAhead.refl (lexer : Lexer) : lexer.LooksAhead lexer :=
  ⟨.refl lexer, id, fun _ => id⟩

theorem Lexer.LooksAhead.trans {a b c : Lexer} (h : a.LooksAhead b) (h' : b.LooksAhead c) :
    a.LooksAhead c :=
  ⟨h.toSamePosition.trans h'.toSamePosition, fun ha => h'.dotLast (h.dotLast ha),
    fun ts ha => h'.fresh ts (h.fresh ts ha)⟩

variable {lexer : Lexer} {lt : LexerToken} {ts : List LexerToken} {k : ℕ}

theorem keywords_tokens : ∀ keyword ∈ keywords,
    keyword.token ≠ .name ∧ ¬keyword.token.Stop := by
  simp [keywords, Token.Stop]

theorem findKeyword_token {text : String} {keyword : Keyword}
    (h : findKeyword text = some keyword) :
    keyword.token ≠ .name ∧ ¬keyword.token.Stop :=
  keywords_tokens keyword (List.mem_of_find?_eq_some h)

theorem resolve_of_ne (h : lt.token ≠ .name) : lt.resolve = lt := if_neg h

theorem resolve_cases (lt : LexerToken) :
    lt.resolve = lt ∨
      lt.token = .name ∧ lt.resolve.token ≠ .name ∧ ¬lt.resolve.token.Stop := by
  by_cases hname : lt.token = .name
  · rw [LexerToken.resolve, if_pos hname, lexerKeyword]
    cases hfind : findKeyword lt.text with
    | none => exact Or.inl rfl
    | some keyword => exact Or.inr ⟨hname, findKeyword_token hfind⟩
  · exact Or.inl (resolve_of_ne hname)

@[simp] theorem resolve_resolve (lt : LexerToken) : lt.resolve.resolve = lt.resolve := by
  rcases resolve_cases lt with h | ⟨-, hname, -⟩
  · rw [h, h]
  · exact resolve_of_ne hname

@[simp] theorem resolve_endToken : endToken.resolve = endToken := resolve_of_ne (by decide)

@[simp] theorem pending_length (lexer : Lexer) : lexer.pending.length = lexer.size := by
  simp [Lexer.pending, Lexer.size]

theorem tokenNameResolve_eq (lexer : Lexer) (lt : LexerToken) :
    ∃ keyword, lexer.tokenNameResolve lt = (lt.resolve, { lexer with keyword }) := by
  unfold Lexer.tokenNameResolve LexerToken.resolve
  split_ifs
  · exact ⟨_, rfl⟩
  · exact ⟨lexer.keyword, rfl⟩

/-! ## Taking a token -/

/-- The token that is taken first, and the lexer without it. -/
def Lexer.pulled (lexer : Lexer) : LexerToken × Lexer :=
  (if lexer.preread = [] then lexer.tokenPush else lexer).tokenPop

theorem pulled_eq (lexer : Lexer) :
    lexer.pulled.1.resolve = lexer.pending.headD endToken ∧
      lexer.pulled.2.pending = lexer.pending.tail ∧
      lexer.pulled.2.prevToken = lexer.prevToken := by
  obtain ⟨current, preread, keyword, prevToken, rest⟩ := lexer
  cases preread with
  | cons lt preread => exact ⟨rfl, rfl, rfl⟩
  | nil =>
    cases rest with
    | nil => exact ⟨resolve_endToken, rfl, rfl⟩
    | cons lt rest => exact ⟨rfl, rfl, rfl⟩

/-- `njs_lexer_token` returns the first of the tokens to come. -/
theorem lexerToken_eq (lexer : Lexer) : ∃ lexer',
    lexerToken lexer = ((lexer.pending.headD endToken).token, lexer') ∧
      lexer'.lexerToken = some (lexer.pending.headD endToken) ∧
      lexer'.pending = lexer.pending.tail ∧ lexer'.prevToken = lexer.current := by
  obtain ⟨hlt, hpending, hprev⟩ := pulled_eq { lexer with prevToken := lexer.current }
  obtain ⟨keyword, hresolve⟩ := tokenNameResolve_eq
    { lexer with prevToken := lexer.current }.pulled.2
    { lexer with prevToken := lexer.current }.pulled.1
  rw [hlt] at hresolve
  have hpulled : lexerToken lexer =
      (fun taken : LexerToken × Lexer =>
        (taken.1.token, { taken.2 with lexerToken := some taken.1 }))
      ({ lexer with prevToken := lexer.current }.pulled.2.tokenNameResolve
        { lexer with prevToken := lexer.current }.pulled.1) := rfl
  rw [hpulled, hresolve]
  exact ⟨_, rfl, rfl, hpending, hprev⟩

/-- A sequence of tokens without the line ends that it starts with. -/
def skip (ts : List LexerToken) : List LexerToken := ts.dropWhile (·.token = .lineEnd)

/-- The next token of the sequence is on another line. -/
def StartsLine (ts : List LexerToken) : Prop := ∃ lt ∈ ts.head?, lt.token = .lineEnd

@[simp] theorem skip_nil : skip [] = [] := rfl

theorem skip_lineEnd (h : lt.token = .lineEnd) : skip (lt :: ts) = skip ts := by
  simp [skip, h]

theorem skip_of_ne (h : lt.token ≠ .lineEnd) : skip (lt :: ts) = lt :: ts := by
  simp [skip, h]

@[simp] theorem startsLine_nil : ¬StartsLine [] := by simp [StartsLine]

@[simp] theorem startsLine_cons : StartsLine (lt :: ts) ↔ lt.token = .lineEnd := by
  simp [StartsLine]

theorem skip_of_not_startsLine (h : ¬StartsLine ts) : skip ts = ts := by
  cases ts with
  | nil => rfl
  | cons lt ts => exact skip_of_ne (by simpa using h)

theorem skip_ne (h : lt ∈ (skip ts).head?) : lt.token ≠ .lineEnd := by
  have hnot := List.head?_dropWhile_not (fun lt : LexerToken => decide (lt.token = .lineEnd)) ts
  rw [show ts.dropWhile (fun lt : LexerToken => decide (lt.token = .lineEnd)) = skip ts from rfl,
    Option.mem_def.mp h] at hnot
  simpa using hnot

/-- The lexer returns the token `lt` that is the next one but for line ends. -/
structure Lexer.Takes (lexer : Lexer) (lt : LexerToken) (lexer' : Lexer) : Prop where
  first : lt = (skip lexer.pending).headD endToken
  current : lexer'.lexerToken = some lt
  pending : lexer'.pending = (skip lexer.pending).tail
  startsLine : StartsLine lexer.pending → lexer'.prevToken = .lineEnd
  sameLine : ¬StartsLine lexer.pending → lexer'.prevToken = lexer.current

theorem tokenLoop_takes {fuel : ℕ} (hfuel : lexer.pending.length < fuel) :
    ∃ lt lexer', tokenLoop fuel lexer = some (lt.token, lexer') ∧ lexer.Takes lt lexer' := by
  induction fuel generalizing lexer with
  | zero => cases hfuel
  | succ fuel ih =>
    obtain ⟨lexer', htoken, hcurrent, hpending, hprev⟩ := lexerToken_eq lexer
    rw [tokenLoop, htoken]
    cases hts : lexer.pending with
    | nil =>
      rw [hts] at hcurrent hpending
      exact ⟨endToken, lexer', by simp [endToken],
        ⟨by rw [hts]; rfl, hcurrent, by rw [hpending, hts]; rfl, by simp [hts],
          fun _ => hprev⟩⟩
    | cons lt ts =>
      rw [hts] at hcurrent hpending
      by_cases hline : lt.token = .lineEnd
      · have hlength : lexer'.pending.length < fuel := by
          rw [hpending, List.tail_cons]
          rw [hts, List.length_cons] at hfuel
          omega
        obtain ⟨lt', lexer'', hloop, htakes⟩ := ih hlength
        have hskip : skip lexer.pending = skip lexer'.pending := by
          rw [hts, hpending, skip_lineEnd hline, List.tail_cons]
        have hprev' : lexer''.prevToken = .lineEnd := by
          by_cases hstarts : StartsLine lexer'.pending
          · exact htakes.startsLine hstarts
          · rw [htakes.sameLine hstarts, Lexer.current, hcurrent]
            exact hline
        refine ⟨lt', lexer'', ?_, ?_⟩
        · simpa [hline] using hloop
        · constructor
          · rw [hskip]
            exact htakes.first
          · exact htakes.current
          · rw [hskip]
            exact htakes.pending
          · intro _
            exact hprev'
          · intro hsame
            simp [hts, hline] at hsame
      · refine ⟨lt, lexer', by simp [hline], ?_⟩
        have hskip : skip lexer.pending = lt :: ts := by rw [hts, skip_of_ne hline]
        constructor
        · rw [hskip]
          rfl
        · exact hcurrent
        · rw [hpending, hskip]
        · intro hstarts
          simp [hts, hline] at hstarts
        · intro _
          exact hprev

/-- `njs_parser_token` returns the next token that is no line end. -/
theorem parserToken_takes (lexer : Lexer) :
    ∃ lt lexer', parserToken lexer = some (lt.token, lexer') ∧ lexer.Takes lt lexer' := by
  apply tokenLoop_takes
  rw [pending_length]
  exact Nat.lt_succ_self _

/-! ## Looking ahead -/

/-- The `k` tokens that were looked at are in the queue, and none of them stops
`njs_lexer_peek_token`. -/
def Lexer.Peeked (lexer : Lexer) (k : ℕ) : Prop :=
  k ≤ lexer.preread.length ∧ ∀ lt ∈ lexer.preread.take k, ¬lt.token.Stop

theorem peeked_zero (lexer : Lexer) : lexer.Peeked 0 := by simp [Lexer.Peeked]

/-- The queue with one token more, unless it has a token at place `k`. -/
def Lexer.reach (lexer : Lexer) (k : ℕ) : Lexer :=
  if k < lexer.preread.length then lexer else lexer.tokenPush

theorem tokenPush_pending (lexer : Lexer) :
    lexer.tokenPush.pending = lexer.pending ∨
      lexer.tokenPush.pending = lexer.pending ++ [endToken] := by
  obtain ⟨current, preread, keyword, prevToken, rest⟩ := lexer
  cases rest with
  | nil =>
    right
    simp [Lexer.tokenPush, Lexer.nextToken, Lexer.pending]
  | cons lt rest =>
    left
    simp [Lexer.tokenPush, Lexer.nextToken, Lexer.pending]

theorem getD_append_endToken (ts : List LexerToken) (i : ℕ) :
    (ts ++ [endToken]).getD i endToken = ts.getD i endToken := by
  rcases Nat.lt_trichotomy i ts.length with h | h | h
  · simp [List.getD_eq_getElem?_getD, List.getElem?_append_left h]
  · subst h
    simp [List.getD_eq_getElem?_getD]
  · have hge : ts.length ≤ i := Nat.le_of_lt h
    have hge' : (ts ++ [endToken]).length ≤ i := by
      rw [List.length_append]
      exact h
    rw [List.getD_eq_getElem?_getD, List.getElem?_eq_none hge', List.getD_eq_getElem?_getD,
      List.getElem?_eq_none hge]

theorem tokenPush_samePosition (lexer : Lexer) : lexer.SamePosition lexer.tokenPush := by
  have hfields : lexer.tokenPush.lexerToken = lexer.lexerToken ∧
      lexer.tokenPush.prevToken = lexer.prevToken := by
    unfold Lexer.tokenPush Lexer.nextToken
    cases lexer.rest <;> exact ⟨rfl, rfl⟩
  refine ⟨hfields.1, hfields.2, ?_⟩
  funext i
  rcases tokenPush_pending lexer with h | h
  · rw [Lexer.upcoming, h, Lexer.upcoming]
  · rw [Lexer.upcoming, h, getD_append_endToken, Lexer.upcoming]

theorem tokenPush_preread (lexer : Lexer) :
    ∃ lt, lexer.tokenPush.preread = lexer.preread ++ [lt] := by
  unfold Lexer.tokenPush Lexer.nextToken
  cases lexer.rest with
  | nil => exact ⟨endToken, rfl⟩
  | cons lt rest => exact ⟨lt, rfl⟩

theorem reach_preread {link : ℕ} (hlink : link ≤ lexer.preread.length) :
    link < (lexer.reach link).preread.length ∧
      (lexer.reach link).preread.take link = lexer.preread.take link := by
  unfold Lexer.reach
  split_ifs with h
  · exact ⟨h, rfl⟩
  · obtain ⟨lt, hpush⟩ := tokenPush_preread lexer
    have hlength : link = lexer.preread.length := by omega
    rw [hpush, hlength]
    simp

theorem tokenPush_fresh (h : lexer.Fresh ts) : lexer.tokenPush.Fresh ts := by
  unfold Lexer.Fresh at h ⊢
  unfold Lexer.tokenPush Lexer.nextToken
  cases hrest : lexer.rest with
  | nil =>
    rw [hrest] at h
    have hlength := List.drop_eq_nil_iff.mp h.symm
    simp [hrest, hlength.trans (Nat.le_succ _)]
  | cons lt rest =>
    rw [hrest] at h
    simp [← List.drop_drop, ← h]

theorem reach_looksAhead (hpeeked : lexer.Peeked k) : lexer.LooksAhead (lexer.reach k) := by
  unfold Lexer.reach
  split_ifs with hlink
  · exact Lexer.LooksAhead.refl lexer
  · refine ⟨tokenPush_samePosition lexer, fun _ => ?_, fun ts => tokenPush_fresh⟩
    obtain ⟨lt, hpush⟩ := tokenPush_preread lexer
    rw [Lexer.DotLast, hpush, List.dropLast_concat]
    have htake : lexer.preread.take k = lexer.preread := List.take_of_length_le (by omega)
    intro lt hmem hdot
    exact hpeeked.2 lt (htake.symm ▸ hmem) (Or.inr (Or.inr hdot))

theorem peekStep_getD (lexer : Lexer) (link : ℕ) :
    (peekStep lexer link).getD lexer = lexer.reach link := by
  unfold peekStep Lexer.reach
  by_cases hlink : link < lexer.preread.length
  · simp only [List.getElem?_eq_getElem hlink, if_pos hlink]
    split_ifs <;> rfl
  · simp [hlink]

theorem peekStep_of_not_stop {link : ℕ} (hlink : link < lexer.preread.length)
    (hstop : ¬lexer.preread[link].token.Stop) : peekStep lexer link = some lexer := by
  simp only [peekStep, List.getElem?_eq_getElem hlink]
  apply if_neg
  rintro (hdivision | hend)
  · exact hstop (Or.inl hdivision)
  · exact hstop (Or.inr (Or.inl hend))

theorem reach_size (lexer : Lexer) (link : ℕ) : lexer.size ≤ (lexer.reach link).size := by
  unfold Lexer.reach
  split_ifs
  · exact Nat.le_refl _
  · rw [← pending_length, ← pending_length]
    rcases tokenPush_pending lexer with h | h
    · rw [h]
    · rw [h, List.length_append]
      exact Nat.le_add_right _ _

/-- The loop goes to its last place, where no earlier token stops it. -/
theorem peekLoop_eq {n link : ℕ} (hlength : link + n ≤ lexer.preread.length)
    (hstop : ∀ lt ∈ (lexer.preread.drop link).take n, ¬lt.token.Stop) :
    peekLoop n lexer link = (lexer.reach (link + n), link + n) := by
  induction n generalizing link with
  | zero => rw [peekLoop, peekStep_getD, Nat.add_zero]
  | succ n ih =>
    have hlink : link < lexer.preread.length := by omega
    rw [List.drop_eq_getElem_cons hlink, List.take_succ_cons, List.forall_mem_cons] at hstop
    rw [peekLoop, peekStep_of_not_stop hlink hstop.1]
    have hplace : link + 1 + n = link + (n + 1) := by omega
    rw [← hplace]
    exact ih (by omega) hstop.2

theorem upcoming_of_lt (hk : k < lexer.preread.length) :
    lexer.upcoming k = (lexer.preread.getD k endToken).resolve := by
  simp [Lexer.upcoming, Lexer.pending, List.getElem?_append_left, hk]

/-- Resolving a token of the queue changes nothing that is to come. -/
theorem set_upcoming (hk : k < lexer.preread.length) (hlt : lt.resolve = lexer.upcoming k) :
    { lexer with preread := lexer.preread.set k lt }.upcoming = lexer.upcoming := by
  have hpending : { lexer with preread := lexer.preread.set k lt }.pending = lexer.pending := by
    have hmap : (lexer.preread.map LexerToken.resolve).set k lt.resolve =
        lexer.preread.map LexerToken.resolve := by
      have hat : lexer.preread.getD k endToken = lexer.preread[k] := by simp [hk]
      have hk' : k < (lexer.preread.map LexerToken.resolve).length := by simpa using hk
      rw [hlt, upcoming_of_lt hk, hat, ← List.getElem_map LexerToken.resolve (h := hk')]
      exact List.set_getElem_self hk'
    simp only [Lexer.pending, List.map_append, List.map_set, hmap]
  funext i
  rw [Lexer.upcoming, hpending, Lexer.upcoming]

theorem resolve_dot (h : lt.resolve.token = .dot) : lt.token = .dot := by
  rcases resolve_cases lt with heq | ⟨-, -, hstop⟩
  · rwa [heq] at h
  · exact absurd (Or.inr (Or.inr h)) hstop

theorem set_dotLast (hk : k < lexer.preread.length)
    (hlt : (lexer.preread.getD k endToken).resolve = lt) (hdot : lexer.DotLast) :
    { lexer with preread := lexer.preread.set k lt }.DotLast := by
  intro x hx
  obtain ⟨i, hi, rfl⟩ := List.getElem_of_mem hx
  have hi' : i < lexer.preread.dropLast.length := by simpa using hi
  have hold := hdot _ (List.getElem_mem hi')
  rw [List.getElem_dropLast] at hold ⊢
  by_cases hik : k = i
  · subst hik
    rw [List.getElem_set_self, ← hlt]
    intro hresolved
    apply hold
    simpa [hk] using resolve_dot hresolved
  · rwa [List.getElem_set_ne hik]

/-- `njs_lexer_peek_token` returns the token at the offset and leaves the position as it is. -/
theorem lexerPeekToken_eq (hpeeked : lexer.Peeked k) : ∃ lexer',
    lexerPeekToken lexer k = ((lexer.upcoming k).token, lexer') ∧ lexer.LooksAhead lexer' ∧
      lexer.size ≤ lexer'.size ∧
      (¬(lexer.upcoming k).token.Stop → lexer'.Peeked (k + 1)) := by
  have hloop : peekLoop k lexer 0 = (lexer.reach k, k) := by
    have h := @peekLoop_eq lexer k 0 (by simpa using hpeeked.1) (by simpa using hpeeked.2)
    simpa using h
  obtain ⟨hlength, htake⟩ := reach_preread hpeeked.1
  have hsame := reach_looksAhead hpeeked
  have hlt : ((lexer.reach k).preread.getD k endToken).resolve = lexer.upcoming k := by
    rw [← upcoming_of_lt hlength, hsame.upcoming]
  have hresolved : (lexer.upcoming k).resolve = lexer.upcoming k := by
    rw [← hlt, resolve_resolve]
  obtain ⟨keyword, hresolve⟩ := tokenNameResolve_eq (lexer.reach k)
    ((lexer.reach k).preread.getD k endToken)
  rw [hlt] at hresolve
  refine ⟨{ { lexer.reach k with keyword } with
    preread := (lexer.reach k).preread.set k (lexer.upcoming k) }, ?_, ?_, ?_, ?_⟩
  · rw [lexerPeekToken, hloop]
    simp only [hresolve]
  · have hset : (lexer.upcoming k).resolve = { lexer.reach k with keyword }.upcoming k := by
      rw [hresolved, ← hsame.upcoming]
      rfl
    have hupcoming := @set_upcoming { lexer.reach k with keyword } _ _ hlength hset
    refine hsame.trans ⟨⟨rfl, rfl, hupcoming⟩, fun hdot => ?_, fun ts hfresh => ?_⟩
    · exact set_dotLast hlength hlt hdot
    · simpa [Lexer.Fresh] using hfresh
  · have hsize := reach_size lexer k
    simpa [Lexer.size] using hsize
  · intro hstop
    constructor
    · rw [List.length_set]
      exact hlength
    · intro lt hmem
      rw [List.take_succ_eq_append_getElem (by simpa using hlength),
        List.take_set_of_le (le_refl k), List.mem_append, htake] at hmem
      rcases hmem with hmem | hmem
      · exact hpeeked.2 lt hmem
      · obtain rfl : lt = lexer.upcoming k := by simpa using hmem
        exact hstop

/-- Look-ahead has come to the offset `k`, and these are the tokens from there on. -/
structure Lexer.Ahead (lexer : Lexer) (k : ℕ) (ts : List LexerToken) : Prop where
  peeked : lexer.Peeked k
  upcoming : ∀ i, lexer.upcoming (k + i) = ts.getD i endToken
  length : ts.length ≤ lexer.size

theorem ahead_zero (lexer : Lexer) : lexer.Ahead 0 lexer.pending :=
  ⟨peeked_zero lexer, fun i => by rw [Nat.zero_add, Lexer.upcoming], by rw [pending_length]⟩

theorem Lexer.Ahead.peek (h : lexer.Ahead k ts) : ∃ lexer',
    lexerPeekToken lexer k = ((ts.headD endToken).token, lexer') ∧ lexer.LooksAhead lexer' ∧
      (¬(ts.headD endToken).token.Stop → lexer'.Ahead (k + 1) ts.tail) := by
  obtain ⟨lexer', hpeek, hsame, hsize, hpeeked⟩ := lexerPeekToken_eq h.peeked
  have hfirst : lexer.upcoming k = ts.headD endToken := by
    have h0 := h.upcoming 0
    rw [Nat.add_zero] at h0
    rw [h0]
    cases ts <;> rfl
  rw [hfirst] at hpeek hpeeked
  refine ⟨lexer', hpeek, hsame, fun hstop => ⟨hpeeked hstop, ?_, ?_⟩⟩
  · intro i
    rw [hsame.upcoming, Nat.add_assoc, h.upcoming]
    cases ts with
    | nil => simp
    | cons lt ts => simp [Nat.add_comm 1 i]
  · have hlength := h.length
    rw [List.length_tail]
    omega

theorem peekTokenLoop_ahead {fuel : ℕ} (hfuel : ts.length < fuel) (h : lexer.Ahead k ts) :
    ∃ lexer' k', peekTokenLoop fuel lexer k = some (((skip ts).headD endToken).token, lexer', k') ∧
      lexer.LooksAhead lexer' ∧
      (¬((skip ts).headD endToken).token.Stop → lexer'.Ahead k' (skip ts).tail) := by
  induction fuel generalizing lexer k ts with
  | zero => cases hfuel
  | succ fuel ih =>
    obtain ⟨lexer', hpeek, hsame, hahead⟩ := h.peek
    rw [peekTokenLoop, hpeek]
    cases ts with
    | nil => exact ⟨lexer', k + 1, by simp [endToken], hsame, hahead⟩
    | cons lt ts =>
      by_cases hline : lt.token = .lineEnd
      · have hnext : lexer'.Ahead (k + 1) ts := hahead (by simp [hline, Token.Stop])
        obtain ⟨lexer'', k', hloop, hsame', hahead'⟩ := ih (Nat.lt_of_succ_lt_succ hfuel) hnext
        rw [skip_lineEnd hline]
        exact ⟨lexer'', k', by simpa [hline] using hloop, hsame.trans hsame', hahead'⟩
      · rw [skip_of_ne hline]
        exact ⟨lexer', k + 1, by simp [hline], hsame, hahead⟩

/-- `njs_parser_peek_token` returns the next token ahead that is no line end. -/
theorem Lexer.Ahead.parserPeek (h : lexer.Ahead k ts) : ∃ lexer' k',
    parserPeekToken lexer k = some (((skip ts).headD endToken).token, lexer', k') ∧
      lexer.LooksAhead lexer' ∧
      (¬((skip ts).headD endToken).token.Stop → lexer'.Ahead k' (skip ts).tail) :=
  peekTokenLoop_ahead (Nat.lt_succ_of_le h.length) h

end Njs.Parsing
