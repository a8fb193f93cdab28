import Njs.Parsing.ParameterLists

/-!
# Looking for an arrow function

What the answer of `njs_parser_match_arrow_expression` depends on. It compares the end of the line
with the token in front of the list, not with the one in front of the arrow. An illegal token behind
a name is answered with its own number, and this is that of `NJS_OK`.
-/

namespace Njs.Parsing

variable {ts ts' us tail : List LexerToken} {ps ps' : Parameters} {lt : LexerToken}
variable {P : List String → List LexerToken → Prop} {restParameters : Bool}
variable {lexer : Lexer} {k : ℕ}

/-- The tokens go on with `lt` and then `us`, but for line ends and ends. -/
def Continues (lt : LexerToken) (us ts : List LexerToken) : Prop :=
  skip ts = lt :: us ∨ lt = endToken ∧ us = [] ∧ skip ts = []

theorem continues_skip (ts : List LexerToken) :
    Continues ((skip ts).headD endToken) (skip ts).tail ts := by
  unfold Continues
  cases skip ts <;> simp

theorem Continues.ne_lineEnd (h : Continues lt us ts) : lt.token ≠ .lineEnd := by
  rcases h with h | ⟨rfl, -⟩
  · exact skip_cons_ne h
  · simp [endToken]

theorem Continues.shorter (h : Continues lt us ts) : Shorter lt us ts := by
  rcases h with h | ⟨hend, hnil, -⟩
  · left
    have hskip : (skip ts).length ≤ ts.length := (List.dropWhile_sublist _).length_le
    rw [h] at hskip
    exact hskip
  · exact Or.inr ⟨hend, hnil⟩

theorem not_found_of_skip_nil (h : skip ts = []) : ¬Found P restParameters ts := by
  rintro ⟨ps, tail, ⟨hts, -⟩ | ⟨hts, -⟩ | ⟨hts, -⟩, -⟩ <;> simp [h] at hts

theorem Continues.found_iff (h : Continues lt us ts) :
    Found P restParameters (lt :: us) ↔ Found P restParameters ts := by
  rcases h with hskip | ⟨rfl, rfl, hskip⟩
  · exact found_congr (by rw [hskip, skip_of_ne (skip_cons_ne hskip)])
  · exact iff_of_false (not_found (by decide) (by decide) (by decide) (by decide))
      (not_found_of_skip_nil hskip)

/-- The tokens start like a list, but an illegal token stands directly behind a name of it. -/
inductive Broken : List LexerToken → Prop
  | name {n x : LexerToken} {ts us vs : List LexerToken} (hts : skip ts = n :: us)
      (hname : n.token = .name) (hus : skip us = x :: vs) (hillegal : x.token = .illegal) :
      Broken ts
  | rest {e n x : LexerToken} {ts us vs ws : List LexerToken} (hts : skip ts = e :: us)
      (hellipsis : e.token = .ellipsis) (hus : skip us = n :: vs) (hname : n.token = .name)
      (hvs : skip vs = x :: ws) (hillegal : x.token = .illegal) : Broken ts
  | cons {n : LexerToken} {comma : Bool} {ts us vs : List LexerToken} (hts : skip ts = n :: us)
      (hname : n.token = .name) (hcomma : Comma comma us vs) (hvs : Broken vs) : Broken ts

/-- An illegal token is the next one. -/
def IllegalNext (ts : List LexerToken) : Prop :=
  ∃ x us, skip ts = x :: us ∧ x.token = .illegal

theorem broken_congr (h : skip ts = skip ts') : Broken ts ↔ Broken ts' := by
  have hdir {ts ts' : List LexerToken} (h : skip ts = skip ts') (hs : Broken ts) :
      Broken ts' := by
    cases hs with
    | name hts hname hus hillegal => exact .name (h ▸ hts) hname hus hillegal
    | rest hts hellipsis hus hname hvs hillegal =>
      exact .rest (h ▸ hts) hellipsis hus hname hvs hillegal
    | cons hts hname hcomma hvs => exact .cons (h ▸ hts) hname hcomma hvs
  exact ⟨hdir h, hdir h.symm⟩

theorem not_broken_of_skip_nil (h : skip ts = []) : ¬Broken ts := by
  rintro (⟨hts, -⟩ | ⟨hts, -⟩ | ⟨hts, -⟩) <;> simp [h] at hts

theorem not_broken (hline : lt.token ≠ .lineEnd) (hellipsis : lt.token ≠ .ellipsis)
    (hname : lt.token ≠ .name) : ¬Broken (lt :: us) := by
  have hskip := @skip_of_ne _ us hline
  rintro (⟨hts, hname', -⟩ | ⟨hts, hellipsis', -⟩ | ⟨hts, hname', -⟩)
  · obtain ⟨rfl, -⟩ := List.cons.inj (hskip.symm.trans hts)
    exact hname hname'
  · obtain ⟨rfl, -⟩ := List.cons.inj (hskip.symm.trans hts)
    exact hellipsis hellipsis'
  · obtain ⟨rfl, -⟩ := List.cons.inj (hskip.symm.trans hts)
    exact hname hname'

theorem Continues.broken_iff (h : Continues lt us ts) : Broken (lt :: us) ↔ Broken ts := by
  rcases h with hskip | ⟨rfl, rfl, hskip⟩
  · exact broken_congr (by rw [hskip, skip_of_ne (skip_cons_ne hskip)])
  · exact iff_of_false (not_broken (by decide) (by decide) (by decide))
      (not_broken_of_skip_nil hskip)

theorem Broken.not_comma {c : LexerToken} (h : Broken ts) (hts : skip ts = c :: us) :
    c.token ≠ .comma := by
  rintro hcomma
  rw [broken_congr (hts.trans (skip_of_ne (skip_cons_ne hts)).symm)] at h
  exact not_broken (skip_cons_ne hts) (by simp [hcomma]) (by simp [hcomma]) h

theorem broken_name (hlt : lt.token = .name) :
    Broken (lt :: us) ↔ IllegalNext us ∨ Broken (afterComma us).2 := by
  have hline : lt.token ≠ .lineEnd := by simp [hlt]
  have hskip := @skip_of_ne _ us hline
  constructor
  · rintro (⟨hts, hname, hus, hillegal⟩ | ⟨hts, hellipsis, -⟩ | ⟨hts, hname, hcomma, hvs⟩)
    · obtain ⟨rfl, rfl⟩ := List.cons.inj (hskip.symm.trans hts)
      exact Or.inl ⟨_, _, hus, hillegal⟩
    · obtain ⟨rfl, -⟩ := List.cons.inj (hskip.symm.trans hts)
      simp [hlt] at hellipsis
    · obtain ⟨rfl, rfl⟩ := List.cons.inj (hskip.symm.trans hts)
      right
      rw [← hcomma.eq fun c vs => hvs.not_comma]
      exact hvs
  · rintro (⟨x, vs, hus, hillegal⟩ | hbroken)
    · exact .name hskip hlt hus hillegal
    · exact .cons hskip hlt (comma_afterComma us) hbroken

theorem broken_ellipsis (hlt : lt.token = .ellipsis) : Broken (lt :: us) ↔
    ∃ n vs, skip us = n :: vs ∧ n.token = .name ∧ IllegalNext vs := by
  have hskip := @skip_of_ne lt us (by simp [hlt])
  constructor
  · rintro (⟨hts, hname, -⟩ | ⟨hts, -, hus, hname, hvs, hillegal⟩ | ⟨hts, hname, -⟩)
    · obtain ⟨rfl, -⟩ := List.cons.inj (hskip.symm.trans hts)
      simp [hlt] at hname
    · obtain ⟨rfl, rfl⟩ := List.cons.inj (hskip.symm.trans hts)
      exact ⟨_, _, hus, hname, _, _, hvs, hillegal⟩
    · obtain ⟨rfl, -⟩ := List.cons.inj (hskip.symm.trans hts)
      simp [hlt] at hname
  · rintro ⟨n, vs, hus, hname, x, ws, hvs, hillegal⟩
    exact .rest hskip hlt hus hname hvs hillegal

/-! ## Looking ahead -/

theorem toInt_eq_zero_iff {t : Token} : t.toInt = njsOk ↔ t = .illegal := by
  cases t <;> decide

theorem Lexer.Ahead.parserPeek_continues (h : lexer.Ahead k ts) : ∃ lt us lexer' k',
    parserPeekToken lexer k = some (lt.token, lexer', k') ∧ lexer.LooksAhead lexer' ∧
      Continues lt us ts ∧ (¬lt.token.Stop → lexer'.Ahead k' us) := by
  obtain ⟨lexer', k', hpeek, hsame, hahead⟩ := h.parserPeek
  exact ⟨_, _, lexer', k', hpeek, hsame, continues_skip ts, hahead⟩

theorem Continues.illegalNext_iff (h : Continues lt us ts) :
    IllegalNext ts ↔ lt.token = .illegal := by
  unfold IllegalNext
  rcases h with hskip | ⟨rfl, rfl, hskip⟩
  · rw [hskip]
    constructor
    · rintro ⟨x, vs, heq, hillegal⟩
      obtain ⟨rfl, -⟩ := List.cons.inj heq
      exact hillegal
    · intro hillegal
      exact ⟨lt, us, rfl, hillegal⟩
  · simp [hskip, endToken]

theorem Continues.afterComma_eq (h : Continues lt us ts) (hcomma : lt.token ≠ .comma) :
    (afterComma ts).2 = ts := by
  unfold afterComma
  rcases h with hskip | ⟨-, -, hskip⟩
  · simp [hskip, hcomma]
  · simp [hskip]

theorem Continues.afterComma_eq_of_comma (h : Continues lt us ts) (hcomma : lt.token = .comma) :
    (afterComma ts).2 = us := by
  unfold afterComma
  rcases h with hskip | ⟨rfl, -⟩
  · simp [hskip, hcomma]
  · simp [endToken] at hcomma

theorem not_broken_of_failed (h : lt.token.Failed) : ¬Broken (lt :: us) :=
  not_broken (h.ne (by decide)) (h.ne (by decide)) (h.ne (by decide))

/-- What is behind a name. -/
theorem matchName_found (h : lexer.Ahead k us) : ∃ result lexer',
    matchName lexer k = some (result, lexer') ∧ lexer.LooksAhead lexer' ∧
      (∀ code, result = .error code → (∀ P r, ¬Found P r (afterComma us).2) ∧
        ¬Broken (afterComma us).2 ∧ (code = njsOk ↔ IllegalNext us)) ∧
      (∀ token k', result = .ok (token, k') → ¬IllegalNext us ∧ ∃ lt vs, token = lt.token ∧
        Continues lt vs (afterComma us).2 ∧ (¬lt.token.Stop → lexer'.Ahead k' vs) ∧
        Shorter lt vs us) := by
  obtain ⟨lt, vs, lexer₁, k₁, hpeek, hsame, hcontinues, hahead⟩ := h.parserPeek_continues
  rw [matchName, hpeek]
  by_cases hfailed : lt.token.Failed
  · refine ⟨.error lt.token.toInt, lexer₁, by simp [hfailed], hsame, ?_, by simp⟩
    rintro code ⟨⟩
    rw [hcontinues.afterComma_eq (hfailed.ne (by decide)), ← hcontinues.broken_iff,
      hcontinues.illegalNext_iff]
    refine ⟨fun P r => ?_, not_broken_of_failed hfailed, toInt_eq_zero_iff⟩
    rw [← hcontinues.found_iff]
    exact not_found_of_failed hfailed
  · have hillegal : ¬IllegalNext us := by
      rw [hcontinues.illegalNext_iff]
      intro heq
      rw [heq] at hfailed
      exact hfailed (by decide)
    by_cases hcomma : lt.token = .comma
    · have hok : ¬Token.comma.Failed := by decide
      have hnext := hahead (by simp [hcomma, Token.Stop])
      obtain ⟨lt', ws, lexer₂, k₂, hpeek', hsame', hcontinues', hahead'⟩ :=
        hnext.parserPeek_continues
      have hafter := hcontinues.afterComma_eq_of_comma hcomma
      by_cases hfailed' : lt'.token.Failed
      · refine ⟨.error njsDeclined, lexer₂, ?_, hsame.trans hsame', ?_, by simp⟩
        · simp [hok, peekComma, hcomma, hpeek', hfailed']
        · rintro code ⟨⟩
          rw [hafter, ← hcontinues'.broken_iff]
          refine ⟨fun P r => ?_, not_broken_of_failed hfailed', iff_of_false (by decide) hillegal⟩
          rw [← hcontinues'.found_iff]
          exact not_found_of_failed hfailed'
      · refine ⟨.ok (lt'.token, k₂), lexer₂, ?_, hsame.trans hsame', by simp, ?_⟩
        · simp [hok, peekComma, hcomma, hpeek', hfailed']
        · rintro token k' ⟨⟩
          rw [hafter]
          exact ⟨hillegal, lt', ws, rfl, hcontinues', hahead',
            hcontinues'.shorter.trans hcontinues.shorter⟩
    · refine ⟨.ok (lt.token, k₁), lexer₁, ?_, hsame, by simp, ?_⟩
      · simp [hfailed, peekComma, hcomma]
      · rintro token k' ⟨⟩
        rw [hcontinues.afterComma_eq hcomma]
        exact ⟨hillegal, lt, vs, rfl, hcontinues, hahead, hcontinues.shorter⟩

/-- What an iteration finds. -/
theorem matchStep_found (hline : lt.token ≠ .lineEnd) (hclose : lt.token ≠ .closeParenthesis)
    (hahead : ¬lt.token.Stop → lexer.Ahead k us) : ∃ result lexer',
    matchStep lexer k lt.token restParameters = some (result, lexer') ∧
      lexer.LooksAhead lexer' ∧
      (∀ code, result = .error code →
        (∀ tail, ¬Found (fun _ ts => ts = tail) restParameters (lt :: us)) ∧
        (code = njsOk ↔ restParameters = false ∧ Broken (lt :: us))) ∧
      (∀ token k' restParameters', result = .ok (token, k', restParameters') →
        ∃ lt' us', token = lt'.token ∧ lt'.token ≠ .lineEnd ∧
          (¬lt'.token.Stop → lexer'.Ahead k' us') ∧ Shorter lt' us' us ∧
          (∀ tail, Found (fun _ ts => ts = tail) restParameters' (lt' :: us') ↔
            Found (fun _ ts => ts = tail) restParameters (lt :: us)) ∧
          (restParameters' = false ∧ Broken (lt' :: us') ↔
            restParameters = false ∧ Broken (lt :: us))) := by
  cases restParameters with
  | true =>
    refine ⟨.error njsDeclined, lexer, rfl, Lexer.LooksAhead.refl lexer, ?_, by simp⟩
    rintro code ⟨⟩
    exact ⟨fun tail => not_found_rest hline hclose, iff_of_false (by decide) (by simp)⟩
  | false =>
    rw [matchStep, if_neg (by simp)]
    by_cases hellipsis : lt.token = .ellipsis
    · obtain ⟨n, vs, lexer₁, k₁, hpeek, hsame, hcontinues, hahead₁⟩ :=
        (hahead (by simp [hellipsis, Token.Stop])).parserPeek_continues
      rw [peekEllipsis, if_pos hellipsis, hpeek, broken_ellipsis hellipsis]
      simp only [found_ellipsis hellipsis]
      by_cases hname : n.token = .name
      · have hskip : skip us = n :: vs := by
          rcases hcontinues with hskip | ⟨rfl, -⟩
          · exact hskip
          · simp [endToken] at hname
        have hname_iff (Q : LexerToken → List LexerToken → Prop) :
            (∃ n vs, skip us = n :: vs ∧ n.token = .name ∧ Q n vs) ↔ Q n vs := by
          constructor
          · rintro ⟨n', vs', hskip', -, hQ⟩
            obtain ⟨rfl, rfl⟩ := List.cons.inj (hskip.symm.trans hskip')
            exact hQ
          · intro hQ
            exact ⟨n, vs, hskip, hname, hQ⟩
        obtain ⟨result, lexer', hrun, hsame', herror, hok⟩ :=
          matchName_found (hahead₁ (by simp [hname, Token.Stop]))
        rw [hname_iff fun _ vs => IllegalNext vs]
        simp only [hname_iff fun _ vs => Found _ true (afterComma vs).2]
        refine ⟨result.map fun p => (p.1, p.2, true), lexer', by simp [hname, hrun],
          hsame.trans hsame', ?_, ?_⟩
        · intro code hcode
          cases result with
          | ok p => cases hcode
          | error code' =>
            obtain ⟨hfound, -, hiff⟩ := herror code' rfl
            obtain rfl := Except.error.inj hcode
            simp [hfound, hiff]
        · intro token k' rest hresult
          cases result with
          | error code => cases hresult
          | ok p =>
            cases hresult
            obtain ⟨hillegal, lt', ws, htoken, hcontinues', hahead', hshorter⟩ := hok p.1 p.2 rfl
            refine ⟨lt', ws, htoken, hcontinues'.ne_lineEnd, hahead',
              hshorter.trans hcontinues.shorter, fun tail => hcontinues'.found_iff, ?_⟩
            simp [hillegal]
      · refine ⟨.error njsDeclined, lexer₁, by simp [hname], hsame, ?_, by simp⟩
        have hnot : ¬∃ n vs, skip us = n :: vs ∧ n.token = .name := by
          rintro ⟨n', vs', hskip', hname'⟩
          rcases hcontinues with hskip | ⟨-, -, hskip⟩
          · obtain ⟨rfl, rfl⟩ := List.cons.inj (hskip.symm.trans hskip')
            exact hname hname'
          · rw [hskip] at hskip'
            cases hskip'
        rintro code ⟨⟩
        constructor
        · rintro tail ⟨n', vs', hskip', hname', -⟩
          exact hnot ⟨n', vs', hskip', hname'⟩
        · apply iff_of_false (by decide)
          rintro ⟨-, n', vs', hskip', hname', -⟩
          exact hnot ⟨n', vs', hskip', hname'⟩
    · rw [peekEllipsis, if_neg hellipsis]
      by_cases hname : lt.token = .name
      · obtain ⟨result, lexer', hrun, hsame, herror, hok⟩ :=
          matchName_found (hahead (by simp [hname, Token.Stop]))
        rw [broken_name hname]
        simp only [found_name hname]
        refine ⟨result.map fun p => (p.1, p.2, false), lexer', by simp [hname, hrun], hsame,
          ?_, ?_⟩
        · intro code hcode
          cases result with
          | ok p => cases hcode
          | error code' =>
            obtain ⟨hfound, hbroken, hiff⟩ := herror code' rfl
            obtain rfl := Except.error.inj hcode
            simp [hfound, hbroken, hiff]
        · intro token k' rest hresult
          cases result with
          | error code => cases hresult
          | ok p =>
            cases hresult
            obtain ⟨hillegal, lt', ws, htoken, hcontinues, hahead', hshorter⟩ := hok p.1 p.2 rfl
            refine ⟨lt', ws, htoken, hcontinues.ne_lineEnd, hahead', hshorter,
              fun tail => hcontinues.found_iff, ?_⟩
            simp [hillegal, hcontinues.broken_iff]
      · refine ⟨.error njsDeclined, lexer, by simp [hname], Lexer.LooksAhead.refl lexer, ?_,
          by simp⟩
        rintro code ⟨⟩
        exact ⟨fun tail => not_found hline hclose hellipsis hname,
          iff_of_false (by decide) fun h => not_broken hline hellipsis hname h.2⟩

theorem matchStep_endToken (lexer : Lexer) (k : ℕ) (restParameters : Bool) :
    matchStep lexer k endToken.token restParameters = some (.error njsDeclined, lexer) := by
  cases restParameters <;> simp [matchStep, peekEllipsis, endToken]

/-- The loop finds the list that is there. -/
theorem matchLoop_found {fuel : ℕ} (hfuel : us.length + 1 < fuel ∨ lt = endToken ∧ 0 < fuel)
    (hline : lt.token ≠ .lineEnd) (hahead : ¬lt.token.Stop → lexer.Ahead k us) :
    ∃ result lexer', matchLoop fuel lexer k lt.token restParameters = some (result, lexer') ∧
      lexer.LooksAhead lexer' ∧
      (∀ code, result = .error code →
        (∀ tail, ¬Found (fun _ ts => ts = tail) restParameters (lt :: us)) ∧
        (code = njsOk ↔ restParameters = false ∧ Broken (lt :: us))) ∧
      (∀ k', result = .ok k' → ¬(restParameters = false ∧ Broken (lt :: us)) ∧
        ∃ tail, Found (fun _ ts => ts = tail) restParameters (lt :: us) ∧
          lexer'.Ahead k' tail) := by
  induction fuel generalizing lexer k lt us restParameters with
  | zero => omega
  | succ fuel ih =>
    rw [matchLoop]
    by_cases hclose : lt.token = .closeParenthesis
    · refine ⟨.ok k, lexer, if_pos hclose, Lexer.LooksAhead.refl lexer, by simp, ?_⟩
      rintro k' ⟨⟩
      refine ⟨fun h => not_broken hline (by simp [hclose]) (by simp [hclose]) h.2, us, ?_, ?_⟩
      · rw [found_close hclose]
      · exact hahead (by simp [hclose, Token.Stop])
    · obtain ⟨result, lexer₁, hstep, hsame, herror, hok⟩ :=
        @matchStep_found _ _ restParameters _ _ hline hclose hahead
      rw [if_neg hclose, hstep]
      cases result with
      | error code =>
        refine ⟨.error code, lexer₁, rfl, hsame, ?_, by simp⟩
        rintro code' ⟨⟩
        exact herror code rfl
      | ok next =>
        obtain ⟨token, k₁, rest⟩ := next
        obtain ⟨lt', us', rfl, hline', hahead', hshorter, hfound, hbroken⟩ := hok _ _ _ rfl
        have hfuel' : us'.length + 1 < fuel ∨ lt' = endToken ∧ 0 < fuel := by
          rcases hfuel with hfuel | ⟨rfl, -⟩
          · rcases hshorter with hless | ⟨hend, -⟩
            · left
              omega
            · right
              exact ⟨hend, by omega⟩
          · rw [matchStep_endToken] at hstep
            cases hstep
        obtain ⟨result, lexer₂, hloop, hsame', herror', hok'⟩ := ih hfuel' hline' hahead'
        refine ⟨result, lexer₂, hloop, hsame.trans hsame', ?_, ?_⟩
        · simpa only [hfound, hbroken] using herror'
        · simpa only [hfound, hbroken] using hok'

/-- The arrow is the next token. -/
def ArrowNext (ts : List LexerToken) : Prop := ∃ a us, skip ts = a :: us ∧ a.token = .arrow

/-- The end of the line is looked for where the last token was taken. -/
theorem matchArrow_found (h : lexer.Ahead k ts) : ∃ code lexer',
    matchArrow lexer k = some (code, lexer') ∧ lexer.LooksAhead lexer' ∧
      (code = njsOk ↔ lexer.prevToken ≠ .lineEnd ∧ ArrowNext ts) := by
  obtain ⟨lt, us, lexer', k', hpeek, hsame, hcontinues, -⟩ := h.parserPeek_continues
  have hdeclined : njsDeclined ≠ njsOk := by decide
  have harrow : ArrowNext ts ↔ lt.token = .arrow := by
    unfold ArrowNext
    rcases hcontinues with hskip | ⟨rfl, rfl, hskip⟩
    · rw [hskip]
      constructor
      · rintro ⟨x, vs, heq, harrow⟩
        obtain ⟨rfl, -⟩ := List.cons.inj heq
        exact harrow
      · intro harrow
        exact ⟨lt, us, rfl, harrow⟩
    · simp [hskip, endToken]
  have hok : ¬Token.arrow.Failed := by decide
  rw [matchArrow, hpeek, harrow, ← hsame.prevToken]
  by_cases hfailed : lt.token.Failed
  · refine ⟨njsDeclined, lexer', by simp [hfailed], hsame, iff_of_false hdeclined ?_⟩
    rintro ⟨-, heq⟩
    exact hok (heq ▸ hfailed)
  · by_cases hprev : lexer'.prevToken = .lineEnd
    · exact ⟨njsDeclined, lexer', by simp [hfailed, hprev], hsame, by simp [hprev, hdeclined]⟩
    · by_cases heq : lt.token = .arrow
      · exact ⟨njsOk, lexer', by simp [hok, hprev, heq], hsame, by simp [hprev, heq]⟩
      · exact ⟨njsDeclined, lexer', by simp [hfailed, hprev, heq], hsame,
          by simp [heq, hdeclined]⟩

/-- The answer is `NJS_OK` for a name and for a list, with or without commas, that an arrow follows
on any line, unless a line end stands in front of them, and for a broken list. -/
theorem matchArrowExpression_found (lexer : Lexer) (lt : LexerToken) : ∃ code lexer',
    matchArrowExpression lexer lt.token = some (code, lexer') ∧ lexer.LooksAhead lexer' ∧
      (code = njsOk ↔
        (lt.token = .name ∧ lexer.prevToken ≠ .lineEnd ∧ ArrowNext lexer.pending) ∨
        (lt.token = .openParenthesis ∧ ((∃ ps tail, Parameters.Spelled tail ps lexer.pending ∧
          lexer.prevToken ≠ .lineEnd ∧ ArrowNext tail) ∨ Broken lexer.pending))) := by
  have hdeclined : njsDeclined ≠ njsOk := by decide
  unfold matchArrowExpression
  by_cases hname : lt.token = .name
  · obtain ⟨code, lexer', hrun, hsame, hiff⟩ := matchArrow_found (ahead_zero lexer)
    refine ⟨code, lexer', by simpa [hname] using hrun, hsame, ?_⟩
    simp [hname, hiff]
  · by_cases hopen : lt.token = .openParenthesis
    · obtain ⟨lt', us, lexer₁, k₁, hpeek, hsame, hcontinues, hahead⟩ :=
        (ahead_zero lexer).parserPeek_continues
      have hfound (P : List String → List LexerToken → Prop) :
          Found P false (lt' :: us) ↔
            ∃ ps tail, Parameters.Spelled tail ps lexer.pending ∧ P ps.names tail := by
        rw [hcontinues.found_iff]
        simp [Found]
      rw [← hcontinues.broken_iff]
      by_cases hfailed : lt'.token.Failed
      · refine ⟨njsDeclined, lexer₁, by simp [hopen, hpeek, hfailed], hsame, ?_⟩
        have hnot : ¬∃ ps tail, Parameters.Spelled tail ps lexer.pending ∧
            lexer.prevToken ≠ .lineEnd ∧ ArrowNext tail := by
          rw [← hfound fun _ tail => lexer.prevToken ≠ .lineEnd ∧ ArrowNext tail]
          exact not_found_of_failed hfailed
        simp [hname, hdeclined, hnot, not_broken_of_failed hfailed]
      · have hfuel : us.length + 1 < lexer.size + 2 ∨ lt' = endToken ∧ 0 < lexer.size + 2 := by
          rcases hcontinues.shorter with hless | ⟨hend, -⟩
          · rw [pending_length] at hless
            left
            omega
          · right
            exact ⟨hend, by omega⟩
        obtain ⟨result, lexer₂, hloop, hsame', herror, hok⟩ :=
          @matchLoop_found us lt' false lexer₁ k₁ _ hfuel hcontinues.ne_lineEnd hahead
        cases result with
        | error code =>
          obtain ⟨hnone, hiff⟩ := herror code rfl
          refine ⟨code, lexer₂, by simp [hopen, hpeek, hfailed, hloop], hsame.trans hsame', ?_⟩
          have hnot : ¬∃ ps tail, Parameters.Spelled tail ps lexer.pending ∧
              lexer.prevToken ≠ .lineEnd ∧ ArrowNext tail := by
            rintro ⟨ps, tail, hps, -⟩
            exact hnone tail ((hfound _).mpr ⟨ps, tail, hps, rfl⟩)
          simp [hopen, hnot, hiff]
        | ok k₂ =>
          obtain ⟨hbroken, tail, htail, hahead'⟩ := hok k₂ rfl
          obtain ⟨code, lexer₃, hrun, hsame'', hiff⟩ := matchArrow_found hahead'
          refine ⟨code, lexer₃, by simp [hopen, hpeek, hfailed, hloop, hrun],
            (hsame.trans hsame').trans hsame'', ?_⟩
          obtain ⟨ps, tail', hps, rfl⟩ := (hfound _).mp htail
          have hbroken' : ¬Broken (lt' :: us) := fun h => hbroken ⟨rfl, h⟩
          have hlist : (∃ ps tail, Parameters.Spelled tail ps lexer.pending ∧
              lexer.prevToken ≠ .lineEnd ∧ ArrowNext tail) ↔
                lexer.prevToken ≠ .lineEnd ∧ ArrowNext tail' := by
            constructor
            · rintro ⟨ps', tail'', hps', hrest⟩
              rwa [(hps.unique hps').2] at hrest
            · intro hrest
              exact ⟨ps, tail', hps, hrest⟩
          rw [hiff, hlist, (hsame.trans hsame').prevToken]
          simp [hopen, hbroken']
    · exact ⟨njsDeclined, lexer, by simp [hname, hopen], Lexer.LooksAhead.refl lexer,
        by simp [hname, hopen, hdeclined]⟩

/-! ## What both loops should accept -/

/-- The token `lt` and the ones to come start with a parenthesised list of distinct names that are
separated by commas. -/
def ParameterList (lexer : Lexer) (lt : LexerToken) (tail : List LexerToken) : Prop :=
  lt.token = .openParenthesis ∧ ∃ ps, Parameters.Spelled tail ps lexer.pending ∧ ps.Separated ∧
    ps.names.Nodup

/-- The token `lt` and the ones to come are a parameter list or a single name, and an arrow on the
same line. -/
def ArrowHead (lexer : Lexer) (lt : LexerToken) : Prop :=
  ∃ a us, a.token = .arrow ∧
    (ParameterList lexer lt (a :: us) ∨ lt.token = .name ∧ lexer.pending = a :: us)

/-- The parser takes the parameter lists, the look-ahead finds the heads of the arrow functions,
and it leaves the position of the lexer as it is. -/
structure ReadsParameters (lexer : Lexer) (lt : LexerToken) : Prop where
  taken : ∃ token parser lambda, lambdaArguments (Parser.ofLexer lexer) functionLambdaAlloc
      (scopeArguments + sizeofValue) lt.token = some (token, parser, lambda) ∧
    (¬token.Failed ↔
      ∃ tail, ParameterList lexer lt tail ∧ ¬((skip tail).headD endToken).token.Failed)
  found : ∃ code lexer', matchArrowExpression lexer lt.token = some (code, lexer') ∧
    (code = njsOk ↔ ArrowHead lexer lt) ∧ lexer.SamePosition lexer'

/-- The tokens avoid what both loops read in their own way. -/
structure Unequivocal (lexer : Lexer) (lt : LexerToken) : Prop where
  commas : lt.token = .openParenthesis → ∀ ps tail, Parameters.Spelled tail ps lexer.pending →
    ps.names.Nodup → ¬((skip tail).headD endToken).token.Failed → ps.Separated
  legal : lt.token = .openParenthesis → ¬Broken lexer.pending
  name : lt.token = .name → ArrowNext lexer.pending →
    (lexer.prevToken = .lineEnd ↔ StartsLine lexer.pending)
  list : lt.token = .openParenthesis → ∀ ps tail, Parameters.Spelled tail ps lexer.pending →
    ArrowNext tail → (lexer.prevToken = .lineEnd ↔
      ¬ps.Separated ∨ ¬ps.names.Nodup ∨ StartsLine tail)

theorem arrowNext_and_not_startsLine :
    ArrowNext ts ∧ ¬StartsLine ts ↔ ∃ a us, a.token = .arrow ∧ ts = a :: us := by
  constructor
  · rintro ⟨⟨a, us, hskip, harrow⟩, hline⟩
    rw [skip_of_not_startsLine hline] at hskip
    exact ⟨a, us, harrow, hskip⟩
  · rintro ⟨a, us, harrow, rfl⟩
    have hline : a.token ≠ .lineEnd := by simp [harrow]
    exact ⟨⟨a, us, skip_of_ne hline, harrow⟩, by simpa using hline⟩

theorem arrowHead_name (hname : lt.token = .name) :
    ArrowHead lexer lt ↔ ArrowNext lexer.pending ∧ ¬StartsLine lexer.pending := by
  rw [arrowNext_and_not_startsLine]
  simp [ArrowHead, ParameterList, hname]

theorem arrowHead_list (hopen : lt.token = .openParenthesis) :
    ArrowHead lexer lt ↔ ∃ ps tail, Parameters.Spelled tail ps lexer.pending ∧ ps.Separated ∧
      ps.names.Nodup ∧ ArrowNext tail ∧ ¬StartsLine tail := by
  simp only [arrowNext_and_not_startsLine, ArrowHead, ParameterList, hopen, reduceCtorEq,
    false_and, or_false, true_and]
  constructor
  · rintro ⟨a, us, harrow, ps, hps, hsep, hnodup⟩
    exact ⟨ps, a :: us, hps, hsep, hnodup, a, us, harrow, rfl⟩
  · rintro ⟨ps, tail, hps, hsep, hnodup, a, us, harrow, rfl⟩
    exact ⟨a, us, harrow, ps, hps, hsep, hnodup⟩

/-- The part that takes the list is right where no comma is missing. -/
theorem taken_iff (lexer : Lexer) (lt : LexerToken) :
    (∃ token parser lambda, lambdaArguments (Parser.ofLexer lexer) functionLambdaAlloc
        (scopeArguments + sizeofValue) lt.token = some (token, parser, lambda) ∧
      (¬token.Failed ↔
        ∃ tail, ParameterList lexer lt tail ∧ ¬((skip tail).headD endToken).token.Failed)) ↔
    (lt.token = .openParenthesis → ∀ ps tail, Parameters.Spelled tail ps lexer.pending →
      ps.names.Nodup → ¬((skip tail).headD endToken).token.Failed → ps.Separated) := by
  obtain ⟨token, parser, lambda, hrun, hiff⟩ := lambdaArguments_found lexer lt
  have hresult : (∃ token parser lambda, lambdaArguments (Parser.ofLexer lexer)
      functionLambdaAlloc (scopeArguments + sizeofValue) lt.token = some (token, parser, lambda) ∧
      (¬token.Failed ↔
        ∃ tail, ParameterList lexer lt tail ∧ ¬((skip tail).headD endToken).token.Failed)) ↔
      (¬token.Failed ↔
        ∃ tail, ParameterList lexer lt tail ∧ ¬((skip tail).headD endToken).token.Failed) := by
    rw [hrun]
    constructor
    · rintro ⟨token', parser', lambda', heq, h⟩
      cases heq
      exact h
    · intro h
      exact ⟨token, parser, lambda, rfl, h⟩
  rw [hresult, hiff]
  constructor
  · rintro h hopen ps tail hps hnodup hlegal
    obtain ⟨tail', ⟨-, ps', hps', hsep, -⟩, -⟩ :=
      h.mp ⟨hopen, ps, tail, hps, by simp, by simpa using hnodup, hlegal⟩
    obtain ⟨rfl, -⟩ := hps.unique hps'
    exact hsep
  · intro h
    constructor
    · rintro ⟨hopen, ps, tail, hps, -, hnodup, hlegal⟩
      have hnodup' : ps.names.Nodup := by simpa using hnodup
      exact ⟨tail, ⟨hopen, ps, hps, h hopen ps tail hps hnodup' hlegal, hnodup'⟩, hlegal⟩
    · rintro ⟨tail, ⟨hopen, ps, hps, -, hnodup⟩, hlegal⟩
      exact ⟨hopen, ps, tail, hps, by simp, by simpa using hnodup, hlegal⟩

theorem Broken.not_found (h : Broken ts) : ¬Found P false ts := by
  induction h generalizing P with
  | name hts hname hus hillegal =>
    rw [found_congr (hts.trans (skip_of_ne (skip_cons_ne hts)).symm), found_name hname,
      Continues.afterComma_eq (Or.inl hus) (by simp [hillegal]),
      ← Continues.found_iff (Or.inl hus)]
    exact not_found_of_failed (by rw [hillegal]; decide)
  | rest hts hellipsis hus hname hvs hillegal =>
    rw [found_congr (hts.trans (skip_of_ne (skip_cons_ne hts)).symm), found_ellipsis hellipsis]
    rintro ⟨n', vs', hus', -, hfound⟩
    obtain ⟨rfl, rfl⟩ := List.cons.inj (hus.symm.trans hus')
    rw [Continues.afterComma_eq (Or.inl hvs) (by simp [hillegal]),
      ← Continues.found_iff (Or.inl hvs)] at hfound
    exact not_found_of_failed (by rw [hillegal]; decide) hfound
  | cons hts hname hcomma hvs ih =>
    rw [found_congr (hts.trans (skip_of_ne (skip_cons_ne hts)).symm), found_name hname,
      ← hcomma.eq fun c vs => hvs.not_comma]
    exact ih

theorem Broken.not_spelled (h : Broken ts) : ¬ps.Spelled tail ts :=
  fun hps => h.not_found (P := fun _ _ => True) ⟨ps, tail, hps, by simp, trivial⟩

/-- The part that looks ahead is right where nothing else is answered with `NJS_OK`, and no line
end in front hides a head. -/
theorem found_iff (lexer : Lexer) (lt : LexerToken) :
    (∃ code lexer', matchArrowExpression lexer lt.token = some (code, lexer') ∧
      (code = njsOk ↔ ArrowHead lexer lt) ∧ lexer.SamePosition lexer') ↔
    (lt.token = .openParenthesis → ¬Broken lexer.pending) ∧
    (lt.token = .name → ArrowNext lexer.pending →
      (lexer.prevToken = .lineEnd ↔ StartsLine lexer.pending)) ∧
    (lt.token = .openParenthesis → ∀ ps tail, Parameters.Spelled tail ps lexer.pending →
      ArrowNext tail → (lexer.prevToken = .lineEnd ↔
        ¬ps.Separated ∨ ¬ps.names.Nodup ∨ StartsLine tail)) := by
  obtain ⟨code, lexer', hrun, hsame, hiff⟩ := matchArrowExpression_found lexer lt
  have hresult : (∃ code lexer', matchArrowExpression lexer lt.token = some (code, lexer') ∧
      (code = njsOk ↔ ArrowHead lexer lt) ∧ lexer.SamePosition lexer') ↔
      (code = njsOk ↔ ArrowHead lexer lt) := by
    rw [hrun]
    constructor
    · rintro ⟨code', lexer'', heq, h, -⟩
      cases heq
      exact h
    · intro h
      exact ⟨code, lexer', rfl, h, hsame.toSamePosition⟩
  rw [hresult, hiff]
  by_cases hname : lt.token = .name
  · simp only [hname, reduceCtorEq, false_and, or_false, true_and, arrowHead_name hname,
      false_implies, and_true, true_implies]
    by_cases harrow : ArrowNext lexer.pending
    · simp [harrow, not_iff_not]
    · simp [harrow]
  · by_cases hopen : lt.token = .openParenthesis
    · simp only [hopen, reduceCtorEq, false_and, false_or, true_and, arrowHead_list hopen,
        false_implies, true_implies]
      have hhead {ps : Parameters} {tail : List LexerToken}
          (hps : ps.Spelled tail lexer.pending) (harrow : ArrowNext tail) :
          ((∃ ps tail, Parameters.Spelled tail ps lexer.pending ∧ lexer.prevToken ≠ .lineEnd ∧
              ArrowNext tail) ↔ lexer.prevToken ≠ .lineEnd) ∧
          ((∃ ps tail, Parameters.Spelled tail ps lexer.pending ∧ ps.Separated ∧
              ps.names.Nodup ∧ ArrowNext tail ∧ ¬StartsLine tail) ↔
            ¬(¬ps.Separated ∨ ¬ps.names.Nodup ∨ StartsLine tail)) := by
        constructor
        · exact ⟨fun ⟨_, _, _, hprev, _⟩ => hprev, fun hprev => ⟨ps, tail, hps, hprev, harrow⟩⟩
        · constructor
          · rintro ⟨ps', tail', hps', hsep, hnodup, -, hline⟩
            obtain ⟨rfl, rfl⟩ := hps.unique hps'
            simp [hsep, hnodup, hline]
          · intro h
            push Not at h
            exact ⟨ps, tail, hps, h.1, h.2.1, harrow, h.2.2⟩
      constructor
      · intro h
        have hlegal : ¬Broken lexer.pending := by
          intro hbroken
          obtain ⟨ps, tail, hps, -⟩ := h.mp (Or.inr hbroken)
          exact hbroken.not_spelled hps
        refine ⟨hlegal, fun ps tail hps harrow => ?_⟩
        obtain ⟨hcode, hclaim⟩ := hhead hps harrow
        rw [hcode, hclaim, or_iff_left hlegal] at h
        exact not_iff_not.mp h
      · rintro ⟨hlegal, hlist⟩
        rw [or_iff_left hlegal]
        by_cases hsome : ∃ ps tail, Parameters.Spelled tail ps lexer.pending ∧ ArrowNext tail
        · obtain ⟨ps, tail, hps, harrow⟩ := hsome
          obtain ⟨hcode, hclaim⟩ := hhead hps harrow
          rw [hcode, hclaim]
          exact not_iff_not.mpr (hlist ps tail hps harrow)
        · apply iff_of_false
          · rintro ⟨ps, tail, hps, -, harrow⟩
            exact hsome ⟨ps, tail, hps, harrow⟩
          · rintro ⟨ps, tail, hps, -, -, harrow, -⟩
            exact hsome ⟨ps, tail, hps, harrow⟩
    · have hhead : ¬ArrowHead lexer lt := by
        rintro ⟨a, us, -, ⟨hopen', -⟩ | ⟨hname', -⟩⟩
        · exact hopen hopen'
        · exact hname hname'
      simp [hname, hopen, hhead]

/-- The parameter lists are read as they should be exactly on the tokens that avoid what the code
reads in another way. -/
theorem readsParameters_iff (lexer : Lexer) (lt : LexerToken) :
    ReadsParameters lexer lt ↔ Unequivocal lexer lt := by
  constructor
  · rintro ⟨htaken, hfound⟩
    obtain ⟨hlegal, hname, hlist⟩ := (found_iff lexer lt).mp hfound
    exact ⟨(taken_iff lexer lt).mp htaken, hlegal, hname, hlist⟩
  · rintro ⟨hcommas, hlegal, hname, hlist⟩
    exact ⟨(taken_iff lexer lt).mpr hcommas, (found_iff lexer lt).mpr ⟨hlegal, hname, hlist⟩⟩

/-- A token that is not a name. -/
def LexerToken.plain (token : Token) : LexerToken := ⟨token, "", .finite 0⟩

/-- A name. -/
def LexerToken.named (text : String) : LexerToken := ⟨.name, text, .finite 0⟩

theorem spelled_named {text : String} (hts : skip ts = .named text :: us)
    (hps : ps.Spelled tail us) : (Parameters.cons text false ps).Spelled tail ts :=
  .cons hts rfl (comma_none us) hps

/-- The lexer in `function f(a b) {}` at the parenthesis. -/
def missingComma : Lexer :=
  ⟨some (.plain .openParenthesis), [], false, .name,
    [.named "a", .named "b", .plain .closeParenthesis, .plain .openBrace, .plain .closeBrace]⟩

/-- The lexer in `f(`, the end of the line and `(a) => a)` at the second parenthesis. -/
def arrowOnNewLine : Lexer :=
  ⟨some (.plain .openParenthesis), [], false, .lineEnd,
    [.named "a", .plain .closeParenthesis, .plain .arrow, .named "a", .plain .closeParenthesis]⟩

/-- `function f(a b) {}` is accepted, and an arrow function at the start of a line is not found. -/
theorem not_readsParameters :
    ¬ReadsParameters missingComma (.plain .openParenthesis) ∧
      ¬ReadsParameters arrowOnNewLine (.plain .openParenthesis) := by
  constructor
  · rintro ⟨htaken, -⟩
    have hspelled : (Parameters.cons "a" false (.cons "b" false .nil)).Spelled
        [.plain .openBrace, .plain .closeBrace] missingComma.pending :=
      spelled_named rfl (spelled_named rfl (.close rfl rfl))
    have hsep := (taken_iff _ _).mp htaken rfl _ _ hspelled (by decide) (by decide)
    simp [Parameters.Separated] at hsep
  · rintro ⟨-, hfound⟩
    have hspelled : (Parameters.cons "a" false .nil).Spelled
        [.plain .arrow, .named "a", .plain .closeParenthesis] arrowOnNewLine.pending :=
      spelled_named rfl (.close rfl rfl)
    have hline := ((found_iff _ _).mp hfound).2.2 rfl _ _ hspelled ⟨_, _, rfl, rfl⟩
    simp [Parameters.Separated, Parameters.names, arrowOnNewLine, LexerToken.plain] at hline

end Njs.Parsing
