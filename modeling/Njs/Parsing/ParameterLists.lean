import Njs.Parsing.Parameters

/-!
# The language of the parameter lists

Both loops accept the same lists: names, the last of which may follow an ellipsis, with a comma
behind a name or without one. The commas are optional in the code, the parser that takes the
list refuses repeated names, the one that looks ahead does not.
-/

namespace Njs.Parsing

/-- What stands between the parentheses: names, each with a comma behind it or without one, and
maybe one name more behind an ellipsis. -/
inductive Parameters
  | nil
  | rest (name : String) (comma : Bool)
  | cons (name : String) (comma : Bool) (ps : Parameters)
  deriving DecidableEq

/-- The names of the parameters. -/
def Parameters.names : Parameters → List String
  | .nil => []
  | .rest name _ => [name]
  | .cons name _ ps => name :: ps.names

/-- There is a comma between any two names. -/
def Parameters.Separated : Parameters → Prop
  | .cons _ comma ps => (comma = true ∨ ps = .nil) ∧ ps.Separated
  | _ => True

/-- There is a comma at the place, or there may be anything. -/
def Comma (comma : Bool) (ts us : List LexerToken) : Prop :=
  if comma then ∃ lt, lt.token = .comma ∧ skip ts = lt :: us else us = ts

/-- The tokens are the parameters and the closing parenthesis, with line ends anywhere between
them. They are followed by the tokens `tail`. -/
inductive Parameters.Spelled (tail : List LexerToken) : Parameters → List LexerToken → Prop
  | close {c : LexerToken} {ts : List LexerToken} (hts : skip ts = c :: tail)
      (hclose : c.token = .closeParenthesis) : Spelled tail .nil ts
  | rest {e n : LexerToken} {comma : Bool} {ts us vs ws : List LexerToken}
      (hts : skip ts = e :: us) (hellipsis : e.token = .ellipsis) (hus : skip us = n :: vs)
      (hname : n.token = .name) (hcomma : Comma comma vs ws) (hnil : Spelled tail .nil ws) :
      Spelled tail (.rest n.text comma) ts
  | cons {n : LexerToken} {comma : Bool} {ps : Parameters} {ts us vs : List LexerToken}
      (hts : skip ts = n :: us) (hname : n.token = .name) (hcomma : Comma comma us vs)
      (hps : Spelled tail ps vs) : Spelled tail (.cons n.text comma ps) ts

variable {ts ts' us tail : List LexerToken} {ps ps' : Parameters} {lt : LexerToken}

theorem comma_none (ts : List LexerToken) : Comma false ts ts := by simp [Comma]

theorem skip_cons_ne (h : skip ts = lt :: us) : lt.token ≠ .lineEnd :=
  @skip_ne _ ts (by rw [h]; rfl)

/-- Line ends in front of the tokens make no difference. -/
theorem spelled_congr (h : skip ts = skip ts') : ps.Spelled tail ts ↔ ps.Spelled tail ts' := by
  have hdir {ts ts' : List LexerToken} (h : skip ts = skip ts') (hs : ps.Spelled tail ts) :
      ps.Spelled tail ts' := by
    cases hs with
    | close hts hclose => exact .close (h ▸ hts) hclose
    | rest hts hellipsis hus hname hcomma hnil =>
      exact .rest (h ▸ hts) hellipsis hus hname hcomma hnil
    | cons hts hname hcomma hps => exact .cons (h ▸ hts) hname hcomma hps
  exact ⟨hdir h, hdir h.symm⟩

/-- What is spelled by tokens of which the first is not a line end. -/
theorem spelled_cons_iff (hlt : lt.token ≠ .lineEnd) : ps.Spelled tail (lt :: us) ↔
    (lt.token = .closeParenthesis ∧ ps = .nil ∧ us = tail) ∨
    (lt.token = .ellipsis ∧ ∃ n comma vs ws, skip us = n :: vs ∧ n.token = .name ∧
      Comma comma vs ws ∧ Parameters.nil.Spelled tail ws ∧ ps = .rest n.text comma) ∨
    (lt.token = .name ∧ ∃ comma vs qs, Comma comma us vs ∧ qs.Spelled tail vs ∧
      ps = .cons lt.text comma qs) := by
  have hskip := @skip_of_ne _ us hlt
  constructor
  · rintro (⟨hts, hclose⟩ | ⟨hts, hellipsis, hus, hname, hcomma, hnil⟩ |
      ⟨hts, hname, hcomma, hps⟩)
    · obtain ⟨rfl, rfl⟩ := List.cons.inj (hskip.symm.trans hts)
      exact Or.inl ⟨hclose, rfl, rfl⟩
    · obtain ⟨rfl, rfl⟩ := List.cons.inj (hskip.symm.trans hts)
      exact Or.inr (Or.inl ⟨hellipsis, _, _, _, _, hus, hname, hcomma, hnil, rfl⟩)
    · obtain ⟨rfl, rfl⟩ := List.cons.inj (hskip.symm.trans hts)
      exact Or.inr (Or.inr ⟨hname, _, _, _, hcomma, hps, rfl⟩)
  · rintro (⟨hclose, rfl, rfl⟩ | ⟨hellipsis, n, comma, vs, ws, hus, hname, hcomma, hnil, rfl⟩ |
      ⟨hname, comma, vs, qs, hcomma, hps, rfl⟩)
    · exact .close hskip hclose
    · exact .rest hskip hellipsis hus hname hcomma hnil
    · exact .cons hskip hname hcomma hps

/-- The tokens behind the comma that they may start with, and whether there is one. -/
def afterComma (ts : List LexerToken) : Bool × List LexerToken :=
  match skip ts with
  | c :: us => if c.token = .comma then (true, us) else (false, ts)
  | [] => (false, ts)

theorem comma_afterComma (ts : List LexerToken) : Comma (afterComma ts).1 ts (afterComma ts).2 := by
  unfold Comma afterComma
  cases skip ts with
  | nil => simp
  | cons c us => by_cases hc : c.token = .comma <;> simp [hc]

/-- Before tokens that do not start with a comma, it is determined whether a comma is there. -/
theorem Comma.eq {comma : Bool} (h : Comma comma ts us)
    (hus : ∀ c vs, skip us = c :: vs → c.token ≠ .comma) : (comma, us) = afterComma ts := by
  unfold Comma at h
  unfold afterComma
  cases comma with
  | true =>
    obtain ⟨c, hc, hts⟩ := h
    simp [hts, hc]
  | false =>
    obtain rfl : us = ts := by simpa using h
    cases hskip : skip us with
    | nil => rfl
    | cons c vs => simp [hus c vs hskip]

theorem Parameters.Spelled.not_comma {c : LexerToken} (h : ps.Spelled tail ts)
    (hts : skip ts = c :: us) : c.token ≠ .comma := by
  rw [spelled_congr (hts.trans (skip_of_ne (skip_cons_ne hts)).symm),
    spelled_cons_iff (skip_cons_ne hts)] at h
  rintro hcomma
  simp [hcomma] at h

/-- No list starts with a comma. So it is determined whether a comma is there. -/
theorem comma_spelled_iff {comma : Bool} : Comma comma ts us ∧ ps.Spelled tail us ↔
    (comma, us) = afterComma ts ∧ ps.Spelled tail us := by
  apply and_congr_left
  intro hps
  constructor
  · intro hcomma
    exact hcomma.eq fun c vs => hps.not_comma
  · intro heq
    have hcomma := comma_afterComma ts
    rw [← heq] at hcomma
    exact hcomma

/-- The list that the tokens spell is determined, and so are the tokens behind it. -/
theorem Parameters.Spelled.unique {tail' : List LexerToken} (h : ps.Spelled tail ts)
    (h' : ps'.Spelled tail' ts) : ps' = ps ∧ tail' = tail := by
  induction h generalizing ps' with
  | close hts hclose =>
    rw [spelled_congr (hts.trans (skip_of_ne (skip_cons_ne hts)).symm),
      spelled_cons_iff (skip_cons_ne hts)] at h'
    simp only [hclose, reduceCtorEq, true_and, false_and, or_false] at h'
    exact ⟨h'.1, h'.2.symm⟩
  | rest hts hellipsis hus hname hcomma hnil ih =>
    rw [spelled_congr (hts.trans (skip_of_ne (skip_cons_ne hts)).symm),
      spelled_cons_iff (skip_cons_ne hts)] at h'
    simp only [hellipsis, reduceCtorEq, true_and, false_and, or_false, false_or] at h'
    obtain ⟨n', comma', vs', ws', hus', hname', hcomma', hnil', rfl⟩ := h'
    obtain ⟨rfl, rfl⟩ := List.cons.inj (hus.symm.trans hus')
    have heq := (comma_spelled_iff.mp ⟨hcomma, hnil⟩).1
    have heq' := (comma_spelled_iff.mp ⟨hcomma', hnil'⟩).1
    obtain ⟨rfl, rfl⟩ := Prod.mk.inj (heq.trans heq'.symm)
    exact ⟨rfl, (ih hnil').2⟩
  | cons hts hname hcomma hps ih =>
    rw [spelled_congr (hts.trans (skip_of_ne (skip_cons_ne hts)).symm),
      spelled_cons_iff (skip_cons_ne hts)] at h'
    simp only [hname, reduceCtorEq, true_and, false_and, false_or] at h'
    obtain ⟨comma', vs', qs', hcomma', hqs', rfl⟩ := h'
    have heq := (comma_spelled_iff.mp ⟨hcomma, hps⟩).1
    have heq' := (comma_spelled_iff.mp ⟨hcomma', hqs'⟩).1
    obtain ⟨rfl, rfl⟩ := Prod.mk.inj (heq.trans heq'.symm)
    obtain ⟨rfl, rfl⟩ := ih hqs'
    exact ⟨rfl, rfl⟩

/-- The tokens start with a list for which `P` holds. After an ellipsis, only the parenthesis
is left. -/
def Found (P : List String → List LexerToken → Prop) (restParameters : Bool)
    (ts : List LexerToken) : Prop :=
  ∃ ps tail, Parameters.Spelled tail ps ts ∧ (restParameters = true → ps = .nil) ∧ P ps.names tail

variable {P : List String → List LexerToken → Prop} {restParameters : Bool}

theorem found_congr (h : skip ts = skip ts') :
    Found P restParameters ts ↔ Found P restParameters ts' := by
  simp only [Found, spelled_congr h]

theorem found_close (hlt : lt.token = .closeParenthesis) :
    Found P restParameters (lt :: us) ↔ P [] us := by
  have hline : lt.token ≠ .lineEnd := by simp [hlt]
  simp [Found, spelled_cons_iff hline, hlt, Parameters.names]

theorem not_found_rest (hline : lt.token ≠ .lineEnd) (hclose : lt.token ≠ .closeParenthesis) :
    ¬Found P true (lt :: us) := by
  rintro ⟨ps, tail, hps, hnil, -⟩
  obtain rfl := hnil rfl
  simp [spelled_cons_iff hline, hclose] at hps

theorem not_found (hline : lt.token ≠ .lineEnd) (hclose : lt.token ≠ .closeParenthesis)
    (hellipsis : lt.token ≠ .ellipsis) (hname : lt.token ≠ .name) :
    ¬Found P restParameters (lt :: us) := by
  rintro ⟨ps, tail, hps, -⟩
  simp [spelled_cons_iff hline, hclose, hellipsis, hname] at hps

theorem found_name (hlt : lt.token = .name) : Found P false (lt :: us) ↔
    Found (fun names => P (lt.text :: names)) false (afterComma us).2 := by
  have hline : lt.token ≠ .lineEnd := by simp [hlt]
  constructor
  · rintro ⟨ps, tail, hps, -, hP⟩
    rw [spelled_cons_iff hline] at hps
    simp only [hlt, reduceCtorEq, false_and, true_and, false_or] at hps
    obtain ⟨comma, vs, qs, hcomma, hqs, rfl⟩ := hps
    obtain ⟨heq, hqs⟩ := comma_spelled_iff.mp ⟨hcomma, hqs⟩
    rw [← heq]
    exact ⟨qs, tail, hqs, by simp, hP⟩
  · rintro ⟨qs, tail, hqs, -, hP⟩
    obtain ⟨hcomma, hqs⟩ := comma_spelled_iff.mpr ⟨Prod.eta (afterComma us), hqs⟩
    exact ⟨.cons lt.text _ qs, tail, .cons (skip_of_ne hline) hlt hcomma hqs, by simp, hP⟩

theorem found_ellipsis (hlt : lt.token = .ellipsis) : Found P false (lt :: us) ↔
    ∃ n vs, skip us = n :: vs ∧ n.token = .name ∧
      Found (fun names => P (n.text :: names)) true (afterComma vs).2 := by
  have hline : lt.token ≠ .lineEnd := by simp [hlt]
  constructor
  · rintro ⟨ps, tail, hps, -, hP⟩
    rw [spelled_cons_iff hline] at hps
    simp only [hlt, reduceCtorEq, false_and, true_and, false_or, or_false] at hps
    obtain ⟨n, comma, vs, ws, hus, hname, hcomma, hnil, rfl⟩ := hps
    obtain ⟨heq, hnil⟩ := comma_spelled_iff.mp ⟨hcomma, hnil⟩
    refine ⟨n, vs, hus, hname, ?_⟩
    rw [← heq]
    exact ⟨.nil, tail, hnil, fun _ => rfl, hP⟩
  · rintro ⟨n, vs, hus, hname, qs, tail, hqs, hnil, hP⟩
    obtain rfl := hnil rfl
    obtain ⟨hcomma, hqs⟩ := comma_spelled_iff.mpr ⟨Prod.eta (afterComma vs), hqs⟩
    exact ⟨.rest n.text _, tail, .rest (skip_of_ne hline) hlt hus hname hcomma hqs, by simp, hP⟩

/-! ## Taking the list -/

theorem Lexer.Takes.ne_lineEnd {lexer lexer' : Lexer} (h : lexer.Takes lt lexer') :
    lt.token ≠ .lineEnd := by
  rw [h.first]
  cases hskip : skip lexer.pending with
  | nil => simp [endToken]
  | cons lt ts => exact skip_cons_ne hskip

/-- The tokens to come are those that were to come before, but for line ends and ends. -/
theorem Lexer.Takes.spelled_iff {lexer lexer' : Lexer} (h : lexer.Takes lt lexer') :
    ps.Spelled tail (lt :: lexer'.pending) ↔ ps.Spelled tail lexer.pending := by
  rw [h.pending]
  cases hskip : skip lexer.pending with
  | nil =>
    obtain rfl : lt = endToken := by rw [h.first, hskip]; rfl
    rw [spelled_cons_iff (by simp [endToken])]
    have hnot : ¬ps.Spelled tail lexer.pending := by
      rintro (⟨hts, -⟩ | ⟨hts, -⟩ | ⟨hts, -⟩) <;> simp [hskip] at hts
    simp [hnot, endToken]
  | cons c us =>
    obtain rfl : lt = c := by rw [h.first, hskip]; rfl
    apply spelled_congr
    rw [List.tail_cons, skip_of_ne h.ne_lineEnd, hskip]

theorem Lexer.Takes.length {lexer lexer' : Lexer} (h : lexer.Takes lt lexer') :
    lexer'.pending.length < lexer.pending.length ∨ lt = endToken ∧ lexer'.pending = [] := by
  have hskip : (skip lexer.pending).length ≤ lexer.pending.length :=
    (List.dropWhile_sublist _).length_le
  rw [h.first, h.pending]
  cases hts : skip lexer.pending with
  | nil => exact Or.inr ⟨rfl, rfl⟩
  | cons lt us =>
    rw [hts] at hskip
    exact Or.inl hskip

theorem Parser.token_takes (parser : Parser) : ∃ lt lexer,
    parser.token = some (lt.token, { parser with lexer }) ∧ parser.lexer.Takes lt lexer := by
  obtain ⟨lt, lexer, htoken, htakes⟩ := parserToken_takes parser.lexer
  exact ⟨lt, lexer, by rw [Parser.token, htoken]; rfl, htakes⟩

/-- The names of the variables that were added. -/
def Parser.declared (parser : Parser) : List String := parser.vars.map Variable.name

theorem lambdaArgument_of_mem {parser : Parser} (index : ℕ)
    (hpos : ∀ var ∈ parser.vars, 0 < var.index) (hmem : parser.lexer.text ∈ parser.declared) :
    ∃ parser', lambdaArgument parser index = some (.illegal, parser') := by
  obtain ⟨var, hvar, hname⟩ := List.mem_map.mp hmem
  have hfind : (parser.vars.find? (·.name = parser.lexer.text)).isSome := by
    rw [List.find?_isSome]
    exact ⟨var, hvar, by simpa using hname⟩
  obtain ⟨arg, harg⟩ := Option.isSome_iff_exists.mp hfind
  have hindex : arg.index > 0 := hpos arg (List.mem_of_find?_eq_some harg)
  simp [lambdaArgument, variableAdd, harg, hindex]

theorem lambdaArgument_of_not_mem {parser : Parser} (index : ℕ)
    (hmem : parser.lexer.text ∉ parser.declared) :
    lambdaArgument parser index =
      { parser with vars := parser.vars ++ [Variable.mk parser.lexer.text index] }.token := by
  have hne : ∀ var ∈ parser.vars, var.name ≠ parser.lexer.text := by
    intro var hvar heq
    exact hmem (List.mem_map.mpr ⟨var, hvar, heq⟩)
  have hfind : parser.vars.find? (·.name = parser.lexer.text) = none := by
    rw [List.find?_eq_none]
    intro var hvar
    simpa using hne var hvar
  have hold : setIndex parser.vars parser.lexer.text index = parser.vars := by
    have hmap : ∀ var ∈ parser.vars,
        (if var.name = parser.lexer.text then { var with index } else var) = var :=
      fun var hvar => if_neg (hne var hvar)
    rw [setIndex, List.map_congr_left hmap, List.map_id']
  have hset : setIndex (parser.vars ++ [⟨parser.lexer.text, 0⟩]) parser.lexer.text index =
      parser.vars ++ [Variable.mk parser.lexer.text index] := by
    rw [setIndex, List.map_append, ← setIndex, hold]
    simp
  simp only [lambdaArgument, variableAdd, hfind, hset, gt_iff_lt, lt_irrefl, if_false]

theorem Token.Failed.ne {t : Token} (h : t.Failed) {t' : Token} (h' : ¬t'.Failed) : t ≠ t' := by
  rintro rfl
  exact h' h

theorem not_found_of_failed (h : lt.token.Failed) : ¬Found P restParameters (lt :: us) :=
  not_found (h.ne (by decide)) (h.ne (by decide)) (h.ne (by decide)) (h.ne (by decide))

theorem Lexer.Takes.found_iff {lexer lexer' : Lexer} (h : lexer.Takes lt lexer') :
    Found P restParameters (lt :: lexer'.pending) ↔ Found P restParameters lexer.pending := by
  simp only [Found, h.spelled_iff]

theorem Lexer.Takes.skip_eq {lexer lexer' : Lexer} (h : lexer.Takes lt lexer') :
    skip lexer.pending = lt :: lexer'.pending ∨ lt = endToken ∧ skip lexer.pending = [] := by
  rw [h.first, h.pending]
  cases skip lexer.pending with
  | nil => exact Or.inr ⟨rfl, rfl⟩
  | cons lt us => exact Or.inl rfl

/-- The tokens behind `lt'` are fewer than those behind `lt`, or the text is at its end. -/
def Shorter (lt' : LexerToken) (us' us : List LexerToken) : Prop :=
  us'.length < us.length ∨ lt' = endToken ∧ us' = []

theorem Shorter.trans {lt' lt'' : LexerToken} {ts us vs : List LexerToken}
    (h : Shorter lt'' vs us) (h' : Shorter lt' us ts) : Shorter lt'' vs ts := by
  rcases h with h | h
  · rcases h' with h' | ⟨-, rfl⟩
    · exact Or.inl (h.trans h')
    · simp at h
  · exact Or.inr h

/-- What the comma leaves of the tokens that were to come. -/
theorem Parser.comma_takes {lexer : Lexer} {parser : Parser} (h : lexer.Takes lt parser.lexer) :
    ∃ lt' lexer', parser.comma lt.token = some (lt'.token, { parser with lexer := lexer' }) ∧
      lexer'.lexerToken = some lt' ∧ lt'.token ≠ .lineEnd ∧
      Shorter lt' lexer'.pending lexer.pending ∧
      ∀ P r, Found P r (lt' :: lexer'.pending) ↔ Found P r (afterComma lexer.pending).2 := by
  by_cases hcomma : lt.token = .comma
  · obtain ⟨lt', lexer', htoken, htakes⟩ := parser.token_takes
    refine ⟨lt', lexer', by rw [Parser.comma, if_pos hcomma, htoken], htakes.current,
      htakes.ne_lineEnd, Shorter.trans htakes.length h.length, fun P r => ?_⟩
    have hafter : (afterComma lexer.pending).2 = parser.lexer.pending := by
      rcases h.skip_eq with hskip | ⟨rfl, -⟩
      · simp [afterComma, hskip, hcomma]
      · simp [endToken] at hcomma
    rw [hafter, htakes.found_iff]
  · refine ⟨lt, parser.lexer, if_neg hcomma, h.current, h.ne_lineEnd, h.length, fun P r => ?_⟩
    have hafter : (afterComma lexer.pending).2 = lexer.pending := by
      rcases h.skip_eq with hskip | ⟨-, hskip⟩
      · simp [afterComma, hskip, hcomma]
      · simp [afterComma, hskip]
    rw [hafter, h.found_iff]

/-- What the loop has to find in the tokens: new names, and behind the list a token that is no
error. -/
def Acceptable (declared names : List String) (tail : List LexerToken) : Prop :=
  (declared ++ names).Nodup ∧ ¬((skip tail).headD endToken).token.Failed

theorem acceptable_cons {declared : List String} {name : String} :
    (fun names => Acceptable declared (name :: names)) = Acceptable (declared ++ [name]) := by
  funext names tail
  simp [Acceptable]

/-- The state between two parameters. -/
structure Parser.Between (parser : Parser) (lt : LexerToken) : Prop where
  current : parser.lexer.lexerToken = some lt
  ne_lineEnd : lt.token ≠ .lineEnd
  pos : ∀ var ∈ parser.vars, 0 < var.index
  nodup : parser.declared.Nodup

/-- A name, and the comma behind it. -/
theorem lambdaName_found {parser : Parser} {index : ℕ} (h : parser.Between lt)
    (hindex : 0 < index) : ∃ token parser', lambdaName parser index = some (token, parser') ∧
      (token.Failed → ∀ r, ¬Found (fun names => Acceptable parser.declared (lt.text :: names)) r
        (afterComma parser.lexer.pending).2) ∧
      (¬token.Failed → ∃ lt', token = lt'.token ∧ parser'.Between lt' ∧
        parser'.declared = parser.declared ++ [lt.text] ∧
        Shorter lt' parser'.lexer.pending parser.lexer.pending ∧
        ∀ P r, Found P r (lt' :: parser'.lexer.pending) ↔
          Found P r (afterComma parser.lexer.pending).2) := by
  have htext : parser.lexer.text = lt.text := by rw [Lexer.text, h.current]; rfl
  by_cases hmem : parser.lexer.text ∈ parser.declared
  · obtain ⟨parser', hargument⟩ := lambdaArgument_of_mem index h.pos hmem
    have hfailed : Token.illegal.Failed := by decide
    refine ⟨.illegal, parser', by rw [lambdaName, hargument]; simp [hfailed], ?_,
      fun hnot => absurd hfailed hnot⟩
    rintro - r ⟨ps, tail, -, -, hnodup, -⟩
    rw [htext] at hmem
    rw [List.nodup_append] at hnodup
    exact hnodup.2.2 _ hmem _ List.mem_cons_self rfl
  · obtain ⟨lt₁, lexer₁, htoken, htakes⟩ :=
      { parser with vars := parser.vars ++ [Variable.mk parser.lexer.text index] }.token_takes
    obtain ⟨lt', lexer', hcomma, hcurrent, hne, hlength, hfound⟩ :=
      @Parser.comma_takes lt₁ _ { parser with
        vars := parser.vars ++ [Variable.mk parser.lexer.text index], lexer := lexer₁ } htakes
    have hname : lambdaName parser index = some (lt'.token, { parser with
        vars := parser.vars ++ [Variable.mk parser.lexer.text index], lexer := lexer' }) := by
      rw [lambdaName, lambdaArgument_of_not_mem index hmem, htoken]
      by_cases hfailed : lt₁.token.Failed
      · rw [Parser.comma, if_neg (hfailed.ne (by decide))] at hcomma
        simp only [Option.bind_eq_bind, Option.bind_some, if_pos hfailed]
        exact hcomma
      · simp only [Option.bind_eq_bind, Option.bind_some, if_neg hfailed]
        exact hcomma
    refine ⟨lt'.token, _, hname, fun hfailed r => ?_, fun _ =>
      ⟨lt', rfl, ⟨hcurrent, hne, ?_, ?_⟩, ?_, hlength, hfound⟩⟩
    · rw [← hfound]
      exact not_found_of_failed hfailed
    · intro var hvar
      rcases List.mem_append.mp hvar with hvar | hvar
      · exact h.pos var hvar
      · obtain rfl := List.mem_singleton.mp hvar
        exact hindex
    · have hnew : ∀ name ∈ parser.declared, name ≠ parser.lexer.text :=
        fun name hname heq => hmem (heq ▸ hname)
      simpa [Parser.declared, List.nodup_append] using ⟨h.nodup, fun var hvar =>
        hnew _ (List.mem_map_of_mem hvar)⟩
    · simp [Parser.declared, htext]

/-- An iteration takes a parameter, or there is no list. -/
theorem lambdaArgumentsStep_found {parser : Parser} {lambda : FunctionLambda} {index : ℕ}
    (h : parser.Between lt) (hindex : 0 < index) (hclose : lt.token ≠ .closeParenthesis) :
    ∃ token parser' lambda',
      lambdaArgumentsStep parser lambda index lt.token = some (token, parser', lambda') ∧
      (token.Failed → ¬Found (Acceptable parser.declared) lambda.restParameters
        (lt :: parser.lexer.pending)) ∧
      (¬token.Failed → ∃ lt', token = lt'.token ∧ parser'.Between lt' ∧
        Shorter lt' parser'.lexer.pending parser.lexer.pending ∧
        (Found (Acceptable parser'.declared) lambda'.restParameters
            (lt' :: parser'.lexer.pending) ↔
          Found (Acceptable parser.declared) lambda.restParameters
            (lt :: parser.lexer.pending))) := by
  have hfailed : Token.illegal.Failed := by decide
  by_cases hrest : lambda.restParameters = true
  · refine ⟨.illegal, parser, lambda, by rw [lambdaArgumentsStep, if_pos hrest], fun _ => ?_,
      fun hnot => absurd hfailed hnot⟩
    rw [hrest]
    exact not_found_rest h.ne_lineEnd hclose
  · rw [lambdaArgumentsStep, if_neg hrest, Bool.eq_false_of_not_eq_true hrest]
    by_cases hellipsis : lt.token = .ellipsis
    · obtain ⟨n, lexer, htoken, htakes⟩ := parser.token_takes
      rw [Parser.ellipsis, if_pos hellipsis, htoken, found_ellipsis hellipsis]
      by_cases hname : n.token = .name
      · have hbetween : { parser with lexer }.Between n :=
          ⟨htakes.current, htakes.ne_lineEnd, h.pos, h.nodup⟩
        obtain ⟨token, parser', hrun, hfail, hgo⟩ := lambdaName_found hbetween hindex
        have hskip : skip parser.lexer.pending = n :: lexer.pending := by
          rcases htakes.skip_eq with hskip | ⟨rfl, -⟩
          · exact hskip
          · simp [endToken] at hname
        refine ⟨token, parser', { lambda with restParameters := true }, ?_, ?_, ?_⟩
        · simp [hname, hrun]
        · rintro hfailed' ⟨n', vs, hskip', -, hfound⟩
          obtain ⟨rfl, rfl⟩ := List.cons.inj (hskip.symm.trans hskip')
          exact hfail hfailed' true hfound
        · intro hok
          obtain ⟨lt', htoken, hbetween', hdeclared, hshorter, hfound⟩ := hgo hok
          refine ⟨lt', htoken, hbetween', hshorter.trans htakes.length, ?_⟩
          rw [hfound, hdeclared, ← acceptable_cons]
          constructor
          · intro hacc
            exact ⟨n, lexer.pending, hskip, hname, hacc⟩
          · rintro ⟨n', vs, hskip', -, hacc⟩
            obtain ⟨rfl, rfl⟩ := List.cons.inj (hskip.symm.trans hskip')
            exact hacc
      · refine ⟨.illegal, { parser with lexer }, { lambda with restParameters := true },
          by simp [hname], fun _ => ?_, fun hnot => absurd hfailed hnot⟩
        rintro ⟨n', vs, hskip', hname', -⟩
        rcases htakes.skip_eq with hskip | ⟨-, hskip⟩
        · obtain ⟨rfl, rfl⟩ := List.cons.inj (hskip.symm.trans hskip')
          exact hname hname'
        · rw [hskip] at hskip'
          cases hskip'
    · rw [Parser.ellipsis, if_neg hellipsis]
      by_cases hname : lt.token = .name
      · obtain ⟨token, parser', hrun, hfail, hgo⟩ := lambdaName_found h hindex
        refine ⟨token, parser', { lambda with restParameters := false }, ?_, ?_, ?_⟩
        · simp [hname, hrun]
        · intro hfailed'
          rw [found_name hname]
          exact hfail hfailed' false
        · intro hok
          obtain ⟨lt', htoken, hbetween, hdeclared, hshorter, hfound⟩ := hgo hok
          refine ⟨lt', htoken, hbetween, hshorter, ?_⟩
          rw [hfound, hdeclared, found_name hname, acceptable_cons]
      · refine ⟨.illegal, parser, { lambda with restParameters := false }, by simp [hname],
          fun _ => ?_, fun hnot => absurd hfailed hnot⟩
        exact not_found h.ne_lineEnd hclose hellipsis hname

theorem lambdaArgumentsStep_endToken (parser : Parser) (lambda : FunctionLambda) (index : ℕ) :
    ∃ lambda', lambdaArgumentsStep parser lambda index endToken.token =
      some (.illegal, parser, lambda') := by
  unfold lambdaArgumentsStep
  split_ifs
  · exact ⟨lambda, rfl⟩
  · exact ⟨{ lambda with restParameters := false }, by simp [Parser.ellipsis, endToken]⟩

/-- The loop takes the list, or fails where there is none that is acceptable. -/
theorem lambdaArgumentsLoop_found {fuel index : ℕ} {parser : Parser} {lambda : FunctionLambda}
    (hfuel : parser.lexer.pending.length + 1 < fuel ∨ lt = endToken ∧ 0 < fuel)
    (h : parser.Between lt) (hindex : 0 < index) :
    ∃ token parser' lambda',
      lambdaArgumentsLoop fuel parser lambda index lt.token = some (token, parser', lambda') ∧
      (¬token.Failed ↔ Found (Acceptable parser.declared) lambda.restParameters
        (lt :: parser.lexer.pending)) := by
  induction fuel generalizing parser lambda index lt with
  | zero => omega
  | succ fuel ih =>
    rw [lambdaArgumentsLoop]
    by_cases hclose : lt.token = .closeParenthesis
    · obtain ⟨lt', lexer, htoken, htakes⟩ := parser.token_takes
      refine ⟨lt'.token, { parser with lexer }, lambda, by rw [if_pos hclose, htoken]; rfl, ?_⟩
      rw [found_close hclose, Acceptable, htakes.first, List.append_nil]
      exact (and_iff_right h.nodup).symm
    · obtain ⟨token, parser', lambda', hstep, hfail, hgo⟩ :=
        @lambdaArgumentsStep_found _ _ lambda _ h hindex hclose
      rw [if_neg hclose, hstep]
      by_cases hfailed : token.Failed
      · refine ⟨token, parser', lambda', by simp [hfailed], ?_⟩
        exact iff_of_false (not_not_intro hfailed) (hfail hfailed)
      · obtain ⟨lt', rfl, hbetween, hshorter, hfound⟩ := hgo hfailed
        have hfuel' : parser'.lexer.pending.length + 1 < fuel ∨ lt' = endToken ∧ 0 < fuel := by
          rcases hfuel with hfuel | ⟨rfl, -⟩
          · rcases hshorter with hless | ⟨hend, -⟩
            · left
              omega
            · right
              exact ⟨hend, by omega⟩
          · obtain ⟨lambda'', hend⟩ := lambdaArgumentsStep_endToken parser lambda index
            obtain ⟨htoken, -⟩ := Prod.mk.inj (Option.some.inj (hstep.symm.trans hend))
            rw [htoken] at hfailed
            exact absurd (by decide) hfailed
        obtain ⟨token, parser'', lambda'', hloop, hiff⟩ :=
          @ih _ (index + sizeofValue) _ { lambda' with nargs := lambda'.nargs + 1 } hfuel' hbetween
            (by omega)
        exact ⟨token, parser'', lambda'', by simpa [hfailed] using hloop, hiff.trans hfound⟩

/-- `njs_parser_lambda_arguments` accepts a list with new names where the token behind it is no
error. -/
theorem lambdaArguments_found (lexer : Lexer) (lt : LexerToken) :
    ∃ token parser' lambda', lambdaArguments (Parser.ofLexer lexer) functionLambdaAlloc
        (scopeArguments + sizeofValue) lt.token = some (token, parser', lambda') ∧
      (¬token.Failed ↔ lt.token = .openParenthesis ∧
        Found (Acceptable []) false lexer.pending) := by
  rw [lambdaArguments, Parser.match]
  by_cases hopen : lt.token = .openParenthesis
  · obtain ⟨lt', lexer', htoken, htakes⟩ := (Parser.ofLexer lexer).token_takes
    rw [if_pos hopen, htoken]
    have hfound : Found (Acceptable []) false (lt' :: lexer'.pending) ↔
        Found (Acceptable []) false lexer.pending := htakes.found_iff
    have hbetween : { Parser.ofLexer lexer with lexer := lexer' }.Between lt' :=
      ⟨htakes.current, htakes.ne_lineEnd, by simp [Parser.ofLexer],
        by simp [Parser.ofLexer, Parser.declared]⟩
    by_cases hfailed : lt'.token.Failed
    · refine ⟨lt'.token, { Parser.ofLexer lexer with lexer := lexer' }, functionLambdaAlloc,
        by simp [hfailed], ?_⟩
      rw [← hfound]
      exact iff_of_false (not_not_intro hfailed) fun h => not_found_of_failed hfailed h.2
    · obtain ⟨token, parser', lambda', hloop, hiff⟩ := 
        @lambdaArgumentsLoop_found _ (lexer'.size + 2) (scopeArguments + sizeofValue) _
          { functionLambdaAlloc with nargs := 0 } (Or.inl (by simp)) hbetween (by decide)
      refine ⟨token, parser', lambda', by simpa [hfailed] using hloop, hiff.trans ?_⟩
      exact hfound.trans (and_iff_right hopen).symm
  · refine ⟨.illegal, ((Parser.ofLexer lexer).unexpectedToken lt.token).2, functionLambdaAlloc,
      ?_, ?_⟩
    · rw [if_neg hopen]
      have hfailed : ((Parser.ofLexer lexer).unexpectedToken lt.token).1 = .illegal := by
        unfold Parser.unexpectedToken
        split_ifs <;> rfl
      have hillegal : Token.illegal.Failed := by decide
      simp [hfailed, hillegal]
    · exact iff_of_false (not_not_intro (by decide)) fun h => hopen h.1

end Njs.Parsing
