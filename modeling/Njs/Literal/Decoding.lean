import Njs.Literal.Reading

/-!
# Decoding of literals

The parser reads a literal as ECMAScript does unless it has a digit behind a backslash, an escape
of more than six digits, a line ending that is read otherwise, or a pair that is lost because of
the units in front of it.
-/

namespace Njs.Literal

open Json (escapeMark utf8 encodeUnit replacement isHigh isLow pairCode isHigh_iff isLow_iff
  encodeUnit_of_high encodeUnit_of_low not_low_of_high pairCode_bounds)

variable {p q : List UInt8} {s s' : Step} {cpPair u l : ℕ} {us : List ℕ} {tok : Token}
  {toks toks' : List Token} {parts : List Part}

/-! ## What the parser reads -/

/-- What a part stands for to the parser. -/
def Token.njs : Token → Part
  | char u | hex u | separator u | illegalChar u | illegalHex u => .text (utf8 u)
  | carriageReturn _ => .text [13]
  | continuation => .text []
  | unicode u | long u | illegalUnicode u => .unit u

/-- The bytes that the parser writes for parts: the first half of a pair is joined to the unit
behind it, or both are replaced if that is another first half. -/
def njsBytes : List Part → List UInt8
  | [] => []
  | .text bytes :: parts => bytes ++ njsBytes parts
  | .unit u :: .unit l :: parts =>
    if isHigh u then
      (if isLow l then utf8 (pairCode u l) else replacement ++ encodeUnit l) ++ njsBytes parts
    else encodeUnit u ++ njsBytes (.unit l :: parts)
  | .unit u :: parts => encodeUnit u ++ njsBytes parts

theorem alike_of_steps (hcalc : calcStep p = .ok s) (hcreate : createStep p = .ok s') :
    Alike s s' := by
  obtain ⟨t, ht, halike⟩ := createStep_alike hcalc
  obtain rfl := Except.ok.inj (hcreate.symm.trans ht)
  exact halike

theorem Reads.of_char (hcalc : calcStep p = .ok s) (hcreate : createStep p = .ok (.char u q))
    (hrest : Reads cpPair q us) : Reads cpPair p (u :: us) := by
  rcases alike_of_steps hcalc hcreate with rfl | ⟨c, d, src, rfl, heq, hc, hd⟩
  · exact .char hcalc hcreate rfl (calcStep_char_lt hcalc) hrest
  · obtain ⟨rfl, rfl⟩ := Step.char.inj heq
    refine .char hcalc hcreate ?_ (by omega) hrest
    rw [Utf8.size, Utf8.size, if_pos hc, if_pos hd]

theorem calcStep_hex (hcalc : calcStep p = .ok s) (hcreate : createStep p = .ok (.hex u q)) :
    calcStep p = .ok (.hex u q) := by
  rcases alike_of_steps hcalc hcreate with rfl | ⟨c, d, src, -, ⟨⟩, -⟩
  exact hcalc

theorem calcStep_skip (hcalc : calcStep p = .ok s) (hcreate : createStep p = .ok (.skip q)) :
    calcStep p = .ok (.skip q) := by
  rcases alike_of_steps hcalc hcreate with rfl | ⟨c, d, src, -, ⟨⟩, -⟩
  exact hcalc

theorem isScalar_replacement : isScalar Utf8.replacement = true := by decide

theorem utf8_replacement : utf8 Utf8.replacement = replacement := by decide

theorem isScalar_of_not (hu : u < 0x110000) (hhigh : isHigh u = false) (hlow : isLow u = false) :
    isScalar u = true := by
  have hnotHigh : ¬(0xD800 ≤ u ∧ u ≤ 0xDBFF) := by
    rw [← isHigh_iff, hhigh]
    exact Bool.false_ne_true
  have hnotLow : ¬(0xDC00 ≤ u ∧ u ≤ 0xDFFF) := by
    rw [← isLow_iff, hlow]
    exact Bool.false_ne_true
  simp only [isScalar, Bool.or_eq_true, Bool.and_eq_true, decide_eq_true_eq]
  omega

/-- A unit that is no part of a pair becomes one code point. -/
theorem encodeUnit_point (hu : u < 0x110000) : ∃ v, isScalar v = true ∧ utf8 v = encodeUnit u ∧
    v = if 0xD800 ≤ u ∧ u ≤ 0xDFFF then Utf8.replacement else u := by
  by_cases hhigh : isHigh u = true
  · have hrange := isHigh_iff.mp hhigh
    rw [if_pos (by omega), encodeUnit_of_high hhigh]
    exact ⟨_, isScalar_replacement, utf8_replacement, rfl⟩
  · by_cases hlow : isLow u = true
    · have hrange := isLow_iff.mp hlow
      rw [if_pos (by omega), encodeUnit_of_low hlow]
      exact ⟨_, isScalar_replacement, utf8_replacement, rfl⟩
    · have hnot : ¬(0xD800 ≤ u ∧ u ≤ 0xDFFF) := by
        rw [isHigh_iff] at hhigh
        rw [isLow_iff] at hlow
        omega
      rw [Bool.not_eq_true] at hhigh hlow
      rw [if_neg hnot, encodeUnit, hhigh, hlow]
      exact ⟨u, isScalar_of_not hu hhigh hlow, rfl, rfl⟩

/-- A unit alone: the functions go on without a first half. -/
theorem pairing_alone (hu : u < 0x110000) (h : isHigh u = true → beginsUnicode q = false) :
    ∃ v, isScalar v = true ∧ utf8 v = encodeUnit u ∧ pairing 0 u q = (0, [v]) := by
  obtain ⟨v, hscalar, hutf8, hv⟩ := encodeUnit_point hu
  refine ⟨v, hscalar, hutf8, ?_⟩
  rw [pairing, if_neg (by omega), hv]
  split_ifs with hsurrogate hpair
  · rw [h (isHigh_iff.mpr ⟨hsurrogate.1, hpair.1⟩)] at hpair
    cases hpair.2
  · rfl
  · rfl

/-- A first half, and the unit behind it. -/
theorem pairing_high (hu : isHigh u = true) (h : beginsUnicode q = true) :
    pairing 0 u q = (u, []) := by
  have hrange := isHigh_iff.mp hu
  rw [pairing, if_neg (by omega), if_pos (by omega), if_pos ⟨hrange.2, h⟩]

theorem pairing_second (hu : isHigh u = true) (hl : l < 0x110000) :
    ∃ vs : List ℕ, (∀ v ∈ vs, isScalar v = true) ∧ pairing u l q = (0, vs) ∧ vs.flatMap utf8 =
      if isLow l then utf8 (pairCode u l) else replacement ++ encodeUnit l := by
  have hrange := isHigh_iff.mp hu
  rw [pairing, if_pos (by omega)]
  by_cases hlow : isLow l = true
  · obtain ⟨hlower, hupper⟩ := pairCode_bounds hu hlow
    rw [if_pos (isLow_iff.mp hlow), if_pos hlow]
    refine ⟨_, List.forall_mem_singleton.mpr ?_, rfl, List.flatMap_singleton ..⟩
    simp only [isScalar, Bool.or_eq_true, Bool.and_eq_true, decide_eq_true_eq]
    omega
  · rw [if_neg fun h => hlow (isLow_iff.mpr h), if_neg hlow]
    obtain ⟨v, hscalar, hutf8, hv⟩ := encodeUnit_point hl
    have hpair : (if 0xD800 ≤ l ∧ l ≤ 0xDBFF then (0, [Utf8.replacement, Utf8.replacement])
        else (0, [Utf8.replacement, l])) = (0, [Utf8.replacement, v]) := by
      have hnot : ¬(0xDC00 ≤ l ∧ l ≤ 0xDFFF) := fun h => hlow (isLow_iff.mpr h)
      by_cases hhigh : 0xD800 ≤ l ∧ l ≤ 0xDBFF
      · rw [if_pos hhigh, hv, if_pos (by omega)]
      · rw [if_neg hhigh, hv, if_neg (by omega)]
    rw [hpair]
    refine ⟨_, List.forall_mem_cons.mpr ⟨isScalar_replacement,
      List.forall_mem_singleton.mpr hscalar⟩, rfl, ?_⟩
    rw [List.flatMap_cons, List.flatMap_singleton, utf8_replacement, hutf8]

/-- A part that is no unit is read alone. -/
theorem Reads.of_text (hread : tok.Read q (calcStep p) (createStep p)) (hunit : tok.isUnit = false)
    (hrest : Reads 0 q us) : ∃ vs : List ℕ, (∀ v ∈ vs, isScalar v = true) ∧
      tok.njs = .text (vs.flatMap utf8) ∧ Reads 0 p (vs ++ us) := by
  have hchar : ∀ u, tok.step = Step.char u → tok.isLong = false → Reads 0 p ([u] ++ us) := by
    intro u hstep hlong
    obtain ⟨s, hcalc⟩ := hread.counted hlong
    have hcreate := hread.created hlong
    rw [hstep] at hcreate
    exact hrest.of_char hcalc hcreate
  have hhex : ∀ u, u < 256 → tok.step = Step.hex u → tok.isLong = false →
      isScalar u = true ∧ Reads 0 p ([u] ++ us) := by
    intro u hu hstep hlong
    obtain ⟨s, hcalc⟩ := hread.counted hlong
    have hcreate := hread.created hlong
    rw [hstep] at hcreate
    have hpairing : pairing 0 u q = (0, [u]) := by
      rw [pairing, if_neg (by omega), if_neg (by omega)]
    have hreads := @Reads.hex 0 u p q us (calcStep_hex hcalc hcreate) hcreate
      (by rw [hpairing]; exact hrest)
    rw [hpairing] at hreads
    refine ⟨?_, hreads⟩
    rw [isScalar, Bool.or_eq_true, decide_eq_true_eq]
    exact Or.inl (by omega)
  have hranged := hread.ranged
  cases tok with
  | char u | separator u | illegalChar u =>
    exact ⟨[u], List.forall_mem_singleton.mpr hranged, by simp [Token.njs], hchar u rfl rfl⟩
  | hex u | illegalHex u =>
    obtain ⟨hscalar, hreads⟩ := hhex u hranged rfl rfl
    exact ⟨[u], List.forall_mem_singleton.mpr hscalar, by simp [Token.njs], hreads⟩
  | carriageReturn lineFeed =>
    exact ⟨[13], List.forall_mem_singleton.mpr rfl, rfl, hchar 13 rfl rfl⟩
  | continuation =>
    obtain ⟨s, hcalc⟩ := hread.counted rfl
    have hcreate := hread.created rfl
    exact ⟨[], by simp, rfl, .skip (calcStep_skip hcalc hcreate) hcreate hrest⟩
  | unicode u | long u | illegalUnicode u => cases hunit

/-- An escape of a unit. -/
theorem Token.Read.unit (hread : tok.Read q (calcStep p) (createStep p))
    (hunit : tok.isUnit = true) (hlong : tok.isLong = false) :
    ∃ u < 0x110000, tok.njs = .unit u ∧ calcStep p = .ok (.hex u q) ∧
      createStep p = .ok (.hex u q) := by
  obtain ⟨s, hcalc⟩ := hread.counted hlong
  have hcreate := hread.created hlong
  have hranged := hread.ranged
  cases tok with
  | unicode u | illegalUnicode u =>
    exact ⟨u, hranged, rfl, calcStep_hex hcalc hcreate, hcreate⟩
  | long u => cases hlong
  | _ => cases hunit

theorem njsBytes_alone (h : isHigh u = true → ∀ l rest, parts ≠ .unit l :: rest) :
    njsBytes (.unit u :: parts) = encodeUnit u ++ njsBytes parts := by
  rcases parts with - | ⟨⟨bytes⟩ | ⟨l⟩, parts⟩
  · rfl
  · rfl
  · have hhigh : isHigh u ≠ true := fun hu => h hu l parts rfl
    rw [njsBytes, if_neg hhigh]

theorem Token.njs_text (h : tok.isUnit = false) : ∃ bytes, tok.njs = .text bytes := by
  cases tok <;> first | exact ⟨_, rfl⟩ | cases h

/-- No unit is first among the tokens of a text that does not begin with one. -/
theorem Tokens.first (hcontent : Content p) (h : Tokens p toks) (hbegins : beginsUnicode p = false)
    (l : ℕ) (rest : List Part) : toks.map Token.njs ≠ .unit l :: rest := by
  cases h with
  | nil => simp
  | @cons p q tok toks htok hrest =>
    obtain ⟨-, hiff⟩ := token_read hcontent htok
    rw [hbegins] at hiff
    obtain ⟨bytes, hbytes⟩ := Token.njs_text (Bool.eq_false_iff.mpr fun h =>
      Bool.false_ne_true (hiff.mpr h))
    rw [List.map_cons, hbytes]
    simp

/-- Both functions read the tokens of a text if none is too long. -/
theorem reads_tokens (hcontent : Content p) (h : Tokens p toks)
    (hlong : ∀ tok ∈ toks, tok.isLong = false) : ∃ us : List ℕ, (∀ u ∈ us, isScalar u = true) ∧
      Reads 0 p us ∧ us.flatMap utf8 = njsBytes (toks.map Token.njs) := by
  induction hn : toks.length using Nat.strong_induction_on generalizing p toks with
  | _ n ih =>
    cases h with
    | nil => exact ⟨[], by simp, .nil 0, rfl⟩
    | @cons p q tok toks htok hrest =>
      rw [List.length_cons] at hn
      obtain ⟨hlongTok, hlongRest⟩ := List.forall_mem_cons.mp hlong
      obtain ⟨hread, hbegins⟩ := token_read hcontent htok
      rw [List.map_cons]
      by_cases hunit : tok.isUnit = true
      · obtain ⟨u, hu, hnjs, hcalc, hcreate⟩ := hread.unit hunit hlongTok
        rw [hnjs]
        by_cases hpair : isHigh u = true ∧ beginsUnicode q = true
        · obtain ⟨hhigh, hnext⟩ := hpair
          have hfirst := pairing_high hhigh hnext
          cases hrest with
          | nil => cases hnext
          | @cons _ q' tok' toks' htok' hrest' =>
            obtain ⟨hlongTok', hlongRest'⟩ := List.forall_mem_cons.mp hlongRest
            obtain ⟨hread', hbegins'⟩ := token_read hread.content htok'
            obtain ⟨l, hl, hnjs', hcalc', hcreate'⟩ := hread'.unit (hbegins'.mp hnext) hlongTok'
            rw [List.length_cons] at hn
            obtain ⟨us, hscalar, hreads, hbytes⟩ :=
              ih toks'.length (by omega) hread'.content hrest' hlongRest' rfl
            obtain ⟨vs, hvs, hsecond, hpoints⟩ := @pairing_second q' u l hhigh hl
            have hreads' := @Reads.hex u l q q' us hcalc' hcreate' (by rw [hsecond]; exact hreads)
            have hreads'' := @Reads.hex 0 u p q _ hcalc hcreate (by rw [hfirst]; exact hreads')
            rw [hfirst, hsecond, List.nil_append] at hreads''
            refine ⟨vs ++ us, ?_, hreads'', ?_⟩
            · exact fun v hv => (List.mem_append.mp hv).elim (hvs v) (hscalar v)
            · rw [List.map_cons, hnjs', njsBytes, if_pos hhigh, List.flatMap_append, hpoints,
                hbytes]
        · obtain ⟨us, hscalar, hreads, hbytes⟩ :=
            ih toks.length (by omega) hread.content hrest hlongRest rfl
          have hnext : isHigh u = true → beginsUnicode q = false := fun hhigh =>
            Bool.eq_false_iff.mpr fun hnext => hpair ⟨hhigh, hnext⟩
          obtain ⟨v, hv, hutf8, halone⟩ := pairing_alone hu hnext
          have hreads' := @Reads.hex 0 u p q us hcalc hcreate (by rw [halone]; exact hreads)
          rw [halone] at hreads'
          refine ⟨[v] ++ us, List.forall_mem_cons.mpr ⟨hv, hscalar⟩, hreads', ?_⟩
          rw [njsBytes_alone fun hhigh => hrest.first hread.content (hnext hhigh),
            List.flatMap_append, List.flatMap_singleton, hutf8, hbytes]
      · obtain ⟨us, hscalar, hreads, hbytes⟩ :=
          ih toks.length (by omega) hread.content hrest hlongRest rfl
        obtain ⟨vs, hvs, hnjs, hreads'⟩ := hreads.of_text hread (Bool.eq_false_iff.mpr hunit)
        refine ⟨vs ++ us, fun v hv => (List.mem_append.mp hv).elim (hvs v) (hscalar v), hreads', ?_⟩
        rw [hnjs, njsBytes, List.flatMap_append, hbytes]

theorem Token.step_rest (tok : Token) (q : List UInt8) : (tok.step q).rest = q := by
  cases tok <;> rfl

/-- Where both functions read a code point, there is a token that is not too long. -/
theorem token_of_steps (hcontent : Content p) (hcalc : calcStep p = .ok s)
    (hcreate : createStep p = .ok s') (hlt : ∀ cp q, s = .hex cp q → cp < 0x110000) :
    ∃ tok, token p = some (tok, s'.rest) ∧ tok.isLong = false ∧ Content s'.rest := by
  cases htok : token p with
  | none =>
    rcases token_rejects hcontent (ne_nil_of_calcStep hcalc) htok with herror | ⟨cp, q, hhex, hge⟩
    · rw [hcalc] at herror
      cases herror
    · have hcp := hlt cp q (Except.ok.inj (hcalc.symm.trans hhex))
      omega
  | some result =>
    obtain ⟨tok, q⟩ := result
    obtain ⟨hread, -⟩ := token_read hcontent htok
    have hlong : tok.isLong = false := by
      rw [Bool.eq_false_iff]
      intro hlong
      have herror := hread.long hlong
      rw [hcalc] at herror
      cases herror
    obtain rfl := Except.ok.inj (hcreate.symm.trans (hread.created hlong))
    rw [tok.step_rest]
    exact ⟨tok, rfl, hlong, hread.content⟩

/-- What is no code point is encoded as it is. -/
theorem mem_pairing {cp : ℕ} (h : 0x110000 ≤ cp) : cp ∈ (pairing cpPair cp q).2 := by
  unfold pairing
  split_ifs <;> first | omega | simp

/-- A text whose code points can be encoded has tokens, and none is too long. -/
theorem tokens_of_reads (hcontent : Content p) (hreads : Reads cpPair p us)
    (hus : ∀ u ∈ us, u < 0x110000) :
    ∃ toks, Tokens p toks ∧ ∀ tok ∈ toks, tok.isLong = false := by
  induction hreads with
  | nil cpPair => exact ⟨[], .nil, by simp⟩
  | skip hcalc hcreate hrest ih =>
    obtain ⟨tok, htok, hlong, hnext⟩ := token_of_steps hcontent hcalc hcreate (by rintro _ _ ⟨⟩)
    obtain ⟨toks, htoks, hshort⟩ := ih hnext hus
    exact ⟨tok :: toks, .cons htok htoks, List.forall_mem_cons.mpr ⟨hlong, hshort⟩⟩
  | char hcalc hcreate hsize hlt hrest ih =>
    obtain ⟨tok, htok, hlong, hnext⟩ := token_of_steps hcontent hcalc hcreate (by rintro _ _ ⟨⟩)
    obtain ⟨toks, htoks, hshort⟩ := ih hnext (List.forall_mem_cons.mp hus).2
    exact ⟨tok :: toks, .cons htok htoks, List.forall_mem_cons.mpr ⟨hlong, hshort⟩⟩
  | @hex cpPair cp p q us hcalc hcreate hrest ih =>
    have hcp : cp < 0x110000 := by
      by_contra hge
      exact hge (hus cp (List.mem_append_left _ (mem_pairing (not_lt.mp hge))))
    have hlt : ∀ cp' q', Step.hex cp q = Step.hex cp' q' → cp' < 0x110000 := by
      rintro _ _ ⟨⟩
      exact hcp
    obtain ⟨tok, htok, hlong, hnext⟩ := token_of_steps hcontent hcalc hcreate hlt
    obtain ⟨toks, htoks, hshort⟩ := ih hnext fun u hu => hus u (List.mem_append_right _ hu)
    exact ⟨tok :: toks, .cons htok htoks, List.forall_mem_cons.mpr ⟨hlong, hshort⟩⟩

theorem calcFixed_content {k : ℕ} {src : List UInt8} (hk : k ≤ 6) (h : Content src) :
    calcFixed k src = .error .syntaxError ∨ ∃ s, calcFixed k src = .ok s ∧ Content s.rest := by
  rw [calcFixed_eq hk]
  cases hdigits : fixedDigits Str.charToHex k src with
  | none => exact Or.inl rfl
  | some result =>
    obtain ⟨digits, q⟩ := result
    obtain ⟨rfl, -, hall⟩ := fixedDigits_eq_some.mp hdigits
    exact Or.inr ⟨_, rfl, h.digits hall⟩

theorem calcBraced_content {src : List UInt8} (h : Content src) :
    calcBraced src = .error .syntaxError ∨ ∃ s, calcBraced src = .ok s ∧ Content s.rest := by
  rw [calcBraced_eq]
  cases hdigits : bracedDigits Str.charToHex src with
  | none => exact Or.inl rfl
  | some result =>
    obtain ⟨digits, q⟩ := result
    obtain ⟨rfl, -, hall⟩ := (bracedDigits_eq_some (by decide)).mp hdigits
    by_cases hlong : 6 < digits.length
    · exact Or.inl (if_pos hlong)
    · exact Or.inr ⟨_, if_neg hlong, (h.digits hall).tail (by decide) (by decide)⟩

/-- The first function reads no byte beyond the text of a literal. -/
theorem calcStep_content (h : Content p) (hne : p ≠ []) :
    calcStep p = .error .syntaxError ∨ ∃ s, calcStep p = .ok s ∧ Content s.rest := by
  rcases h.cases hne with ⟨e, src, rfl⟩ | ⟨c, src, rfl, hescape⟩
  · change calcEscape e src = _ ∨ ∃ s, calcEscape e src = .ok s ∧ Content s.rest
    unfold calcEscape
    split_ifs with hu hbrace hx hcr hlf
    · subst hu
      exact calcFixed_content (by omega) (h.escaped_ascii (by decide))
    · subst hu
      have hsrc := h.escaped_ascii (by decide)
      cases src with
      | nil => simp at hbrace
      | cons c rest =>
        obtain rfl : c = 123 := by simpa using hbrace
        exact calcBraced_content (hsrc.tail (by decide) (by decide))
    · subst hx
      exact calcFixed_content (by omega) (h.escaped_ascii (by decide))
    · subst hcr
      exact Or.inr ⟨_, rfl, (h.escaped_ascii (by decide)).skipLineFeed⟩
    · subst hlf
      exact Or.inr ⟨_, rfl, h.escaped_ascii (by decide)⟩
    · obtain ⟨u, rest, hchar, hrest⟩ := h.escaped
      exact Or.inr ⟨_, plainChar_character hchar, hrest⟩
  · obtain ⟨u, rest, hchar, hrest⟩ := h.first hescape
    exact Or.inr ⟨_, (calcStep_plain hescape).trans (plainChar_character hchar), hrest⟩

/-- The first function accepts the text of a literal, or reports an error. -/
theorem calcLoop_content {n size length : ℕ} (h : Content p) (hn : p.length ≤ n) :
    calcLoop n cpPair size length p = .error .syntaxError ∨
      ∃ result, calcLoop n cpPair size length p = .ok result := by
  induction n generalizing cpPair size length p with
  | zero =>
    obtain rfl := List.length_eq_zero_iff.mp (Nat.le_zero.mp hn)
    exact Or.inr ⟨_, rfl⟩
  | succ n ih =>
    by_cases hnil : p = []
    · exact Or.inr ⟨_, by rw [calcLoop, if_pos hnil]⟩
    · rw [calcLoop, if_neg hnil]
      rcases calcStep_content h hnil with herror | ⟨s, hcalc, hrest⟩
      · rw [herror]
        exact Or.inl rfl
      · have hlength := calcStep_length hcalc
        rw [hcalc]
        cases s <;> exact ih hrest (Nat.le_of_lt_succ (hlength.trans_le hn))

/-! ## Comparison -/

theorem scriptBytes_alone (h : ∀ l rest, parts = .unit l :: rest → isHigh u = true →
    isLow l = false) : scriptBytes (.unit u :: parts) = encodeUnit u ++ scriptBytes parts := by
  rcases parts with - | ⟨⟨bytes⟩ | ⟨l⟩, parts⟩
  · rfl
  · rfl
  · rw [scriptBytes, if_neg]
    intro hpair
    obtain ⟨hu, hl⟩ := Bool.and_eq_true_iff.mp hpair
    rw [h l parts rfl hu] at hl
    cases hl

/-- A token is a unit for both, or some bytes, of which the parser writes no fewer. -/
theorem Token.cases (tok : Token) : (∃ bytes bytes', tok.njs = .text bytes ∧
      tok.script = .text bytes' ∧ tok.item = .byte 0 ∧ bytes'.length ≤ bytes.length) ∨
    ∃ u, tok.njs = .unit u ∧ tok.script = .unit u ∧ tok.item = .unit u := by
  cases tok with
  | unicode u | long u | illegalUnicode u => exact Or.inr ⟨u, rfl, rfl, rfl⟩
  | carriageReturn lineFeed =>
    refine Or.inl ⟨_, _, rfl, rfl, rfl, ?_⟩
    cases lineFeed <;> decide
  | separator u => exact Or.inl ⟨_, _, rfl, rfl, rfl, Nat.zero_le _⟩
  | char u | hex u | illegalChar u | illegalHex u | continuation =>
    exact Or.inl ⟨_, _, rfl, rfl, rfl, le_rfl⟩

/-- How many more bytes the parser writes, and when it writes the same. -/
structure Compares (toks : List Token) : Prop where
  length : (scriptBytes (toks.map Token.script)).length +
    2 * Json.lostPairs (toks.map Token.item) ≤ (njsBytes (toks.map Token.njs)).length
  same : njsBytes (toks.map Token.njs) = scriptBytes (toks.map Token.script) ↔
    (∀ tok ∈ toks, tok.njs = tok.script) ∧ Json.lostPairs (toks.map Token.item) = 0

theorem append_eq_append_iff_of_le {a b x y : List UInt8} (h : b.length ≤ a.length)
    (h' : y.length ≤ x.length) : a ++ x = b ++ y ↔ a = b ∧ x = y := by
  constructor
  · intro heq
    have hlength := congrArg List.length heq
    rw [List.length_append, List.length_append] at hlength
    exact List.append_inj heq (by omega)
  · rintro ⟨rfl, rfl⟩
    rfl

/-- Both write the same bytes for the first tokens, or the parser writes more. -/
theorem Compares.append {first : List Token} {a b : List UInt8} (h : Compares toks)
    (hnjs : njsBytes ((first ++ toks).map Token.njs) = a ++ njsBytes (toks.map Token.njs))
    (hscript : scriptBytes ((first ++ toks).map Token.script) =
      b ++ scriptBytes (toks.map Token.script)) (hlength : b.length ≤ a.length)
    (hlost : Json.lostPairs ((first ++ toks).map Token.item) =
      Json.lostPairs (toks.map Token.item))
    (hsame : a = b ↔ ∀ tok ∈ first, tok.njs = tok.script) : Compares (first ++ toks) := by
  have hle := h.length
  constructor
  · rw [hnjs, hscript, hlost, List.length_append, List.length_append]
    omega
  · rw [hnjs, hscript, hlost, append_eq_append_iff_of_le hlength (by omega), h.same, hsame,
      List.forall_mem_append, and_assoc]

theorem lostPairs_alone {items : List Json.Item}
    (h : isHigh u = true → ∀ l rest, items ≠ .unit l :: rest) :
    Json.lostPairs (.unit u :: items) = Json.lostPairs items := by
  rcases items with - | ⟨⟨c⟩ | ⟨l⟩, items⟩
  · rfl
  · rfl
  · have hhigh : isHigh u ≠ true := fun hu => h hu l items rfl
    rw [Json.lostPairs, if_neg hhigh]

/-- The first token is a unit for both. -/
theorem unit_first (h : (toks.map Token.njs).head? = some (.unit l) ∨
    (toks.map Token.script).head? = some (.unit l) ∨
    (toks.map Token.item).head? = some (.unit l)) :
    ∃ tok rest, toks = tok :: rest ∧ tok.njs = .unit l ∧ tok.script = .unit l ∧
      tok.item = .unit l := by
  cases toks with
  | nil => simp at h
  | cons tok toks =>
    simp only [List.map_cons, List.head?_cons, Option.some.injEq] at h
    refine ⟨tok, toks, rfl, ?_⟩
    rcases tok.cases with ⟨bytes, bytes', hnjs, hscript, hitem, -⟩ | ⟨m, hnjs, hscript, hitem⟩
    · rw [hnjs, hscript, hitem] at h
      simp at h
    · rw [hnjs, hscript, hitem] at h ⊢
      have hm : m = l := by
        rcases h with ⟨⟨⟩⟩ | ⟨⟨⟩⟩ | ⟨⟨⟩⟩ <;> rfl
      exact hm ▸ ⟨rfl, rfl, rfl⟩

/-- A unit that is not read with the token behind it. -/
theorem Compares.unit (h : Compares toks) (hnjs : tok.njs = .unit u)
    (hscript : tok.script = .unit u) (hitem : tok.item = .unit u) (halone : isHigh u = true →
      ∀ tok' rest l, toks = tok' :: rest → tok'.njs ≠ .unit l) : Compares (tok :: toks) := by
  have hnone : isHigh u = true → ∀ l, ¬((toks.map Token.njs).head? = some (.unit l) ∨
      (toks.map Token.script).head? = some (.unit l) ∨
      (toks.map Token.item).head? = some (.unit l)) := by
    intro hu l hfirst
    obtain ⟨tok', rest, rfl, hunit, -⟩ := unit_first hfirst
    exact halone hu tok' rest l rfl hunit
  refine @Compares.append toks [tok] (encodeUnit u) (encodeUnit u) h ?_ ?_ le_rfl ?_ ?_
  · rw [List.singleton_append, List.map_cons, hnjs]
    exact njsBytes_alone fun hu l rest heq => hnone hu l (Or.inl (heq ▸ rfl))
  · rw [List.singleton_append, List.map_cons, hscript]
    exact scriptBytes_alone fun l rest heq hu =>
      absurd (Or.inr (Or.inl (heq ▸ rfl))) (hnone hu l)
  · rw [List.singleton_append, List.map_cons, hitem]
    exact lostPairs_alone fun hu l rest heq => hnone hu l (Or.inr (Or.inr (heq ▸ rfl)))
  · rw [List.forall_mem_singleton, hnjs, hscript]
    exact iff_of_true rfl rfl

/-- Two units of which the first could begin a pair. -/
theorem Compares.two {tok' : Token} (h : Compares toks) (hnjs : tok.njs = .unit u)
    (hscript : tok.script = .unit u) (hitem : tok.item = .unit u) (hnjs' : tok'.njs = .unit l)
    (hscript' : tok'.script = .unit l) (hitem' : tok'.item = .unit l) (hu : isHigh u = true) :
    Compares (tok :: tok' :: toks) := by
  have hboth : ∀ t ∈ [tok, tok'], t.njs = t.script := by
    simp [hnjs, hscript, hnjs', hscript']
  by_cases hlow : isLow l = true
  · refine @Compares.append toks [tok, tok'] (utf8 (pairCode u l)) (utf8 (pairCode u l)) h
      ?_ ?_ le_rfl ?_ (iff_of_true rfl hboth)
    · simp only [List.cons_append, List.nil_append, List.map_cons, hnjs, hnjs', njsBytes, hu, hlow,
        if_true]
    · simp only [List.cons_append, List.nil_append, List.map_cons, hscript, hscript', scriptBytes,
        hu, hlow, Bool.and_self, if_true]
    · simp only [List.cons_append, List.nil_append, List.map_cons, hitem, hitem', Json.lostPairs,
        hu, Json.high_of_low hlow, Bool.false_eq_true, false_and, if_true, if_false, Nat.zero_add]
  · have hN : njsBytes ((tok :: tok' :: toks).map Token.njs) =
        replacement ++ encodeUnit l ++ njsBytes (toks.map Token.njs) := by
      simp only [List.map_cons, hnjs, hnjs', njsBytes, hu, hlow, if_true, Bool.false_eq_true,
        if_false]
    have hfirst : scriptBytes ((tok :: tok' :: toks).map Token.script) =
        replacement ++ scriptBytes (.unit l :: toks.map Token.script) := by
      simp only [List.map_cons, hscript, hscript', scriptBytes, hu, hlow, Bool.and_false,
        Bool.false_eq_true, if_false, encodeUnit_of_high hu]
    have hI : Json.lostPairs ((tok :: tok' :: toks).map Token.item) =
        (if isHigh l = true ∧ (toks.map Token.item).head?.any Json.Item.isLow = true then 1
          else 0) + Json.lostPairs (toks.map Token.item) := by
      simp only [List.map_cons, hitem, hitem', Json.lostPairs, hu, if_true]
    by_cases hlost : isHigh l = true ∧ (toks.map Token.item).head?.any Json.Item.isLow = true
    · -- The second unit and the third are a pair, and all three are replaced.
      obtain ⟨hl, hnext⟩ := hlost
      obtain ⟨m, hm, rest, hfirstItem⟩ : ∃ m, isLow m = true ∧
          ∃ rest, toks.map Token.item = .unit m :: rest := by
        cases hitems : toks.map Token.item with
        | nil =>
          rw [hitems] at hnext
          cases hnext
        | cons i rest =>
          rw [hitems] at hnext
          cases i with
          | byte c => cases hnext
          | unit m => exact ⟨m, hnext, rest, rfl⟩
      obtain ⟨third, toks, rfl, hnjs3, hscript3, -⟩ :=
        @unit_first m toks (Or.inr (Or.inr (hfirstItem ▸ rfl)))
      have hpair := Json.pair_length hl hm
      have hthree : replacement.length = 3 := rfl
      have hle := h.length
      have hscriptRest : scriptBytes ((third :: toks).map Token.script) =
          encodeUnit m ++ scriptBytes (toks.map Token.script) := by
        rw [List.map_cons, hscript3]
        refine scriptBytes_alone fun _ _ _ hm' => ?_
        rw [Json.high_of_low hm] at hm'
        cases hm'
      have hS : scriptBytes (.unit l :: (third :: toks).map Token.script) =
          utf8 (pairCode l m) ++ scriptBytes (toks.map Token.script) := by
        simp only [List.map_cons, hscript3, scriptBytes, hl, hm, Bool.and_self, if_true]
      rw [hscriptRest, encodeUnit_of_low hm, List.length_append] at hle
      have hstrict : (scriptBytes ((tok :: tok' :: third :: toks).map Token.script)).length <
          (njsBytes ((tok :: tok' :: third :: toks).map Token.njs)).length := by
        rw [hN, hfirst, hS, encodeUnit_of_high hl]
        simp only [List.length_append]
        omega
      constructor
      · rw [hI, if_pos ⟨hl, hnext⟩, hN, hfirst, hS, encodeUnit_of_high hl]
        simp only [List.length_append]
        omega
      · refine iff_of_false (fun heq => ?_) fun hzero => ?_
        · rw [heq] at hstrict
          exact lt_irrefl _ hstrict
        · rw [hI, if_pos ⟨hl, hnext⟩] at hzero
          omega
    · have hS : scriptBytes (.unit l :: toks.map Token.script) =
          encodeUnit l ++ scriptBytes (toks.map Token.script) := by
        refine scriptBytes_alone fun m rest heq hl => ?_
        obtain ⟨third, toks, rfl, -, -, hitem3⟩ := @unit_first m toks (Or.inr (Or.inl (heq ▸ rfl)))
        rw [Bool.eq_false_iff]
        intro hm
        refine hlost ⟨hl, ?_⟩
        rw [List.map_cons, hitem3]
        exact hm
      rw [if_neg hlost, Nat.zero_add] at hI
      refine @Compares.append toks [tok, tok'] (replacement ++ encodeUnit l)
        (replacement ++ encodeUnit l) h hN ?_ le_rfl hI (iff_of_true rfl hboth)
      rw [List.cons_append, List.singleton_append, hfirst, hS, List.append_assoc]

/-- The parser writes no fewer bytes than a literal has, and the same ones only if all of its
tokens are read alike and no pair is lost. -/
theorem compares (toks : List Token) : Compares toks := by
  induction hn : toks.length using Nat.strong_induction_on generalizing toks with
  | _ n ih =>
    cases toks with
    | nil => exact ⟨Nat.zero_le _, by simp [njsBytes, scriptBytes, Json.lostPairs]⟩
    | cons tok toks =>
      rw [List.length_cons] at hn
      have hrest := ih toks.length (by omega) toks rfl
      rcases tok.cases with ⟨bytes, bytes', hnjs, hscript, hitem, hlength⟩ |
        ⟨u, hnjs, hscript, hitem⟩
      · refine @Compares.append toks [tok] bytes bytes' hrest ?_ ?_ hlength ?_ ?_
        · rw [List.singleton_append, List.map_cons, hnjs, njsBytes]
        · rw [List.singleton_append, List.map_cons, hscript, scriptBytes]
        · rw [List.singleton_append, List.map_cons, hitem, Json.lostPairs]
        · rw [List.forall_mem_singleton, hnjs, hscript, Part.text.injEq]
      · by_cases htwo : isHigh u = true ∧ ∃ tok' rest l, toks = tok' :: rest ∧ tok'.njs = .unit l
        · obtain ⟨hu, tok', rest, l, rfl, hnjs'⟩ := htwo
          rw [List.length_cons] at hn
          have hfirst := @unit_first l (tok' :: rest) (Or.inl (congrArg some hnjs'))
          obtain ⟨_, _, heq, -, hscript', hitem'⟩ := hfirst
          obtain ⟨rfl, rfl⟩ := List.cons.inj heq
          exact (ih rest.length (by omega) rest rfl).two hnjs hscript hitem hnjs' hscript' hitem' hu
        · exact hrest.unit hnjs hscript hitem fun hu tok' rest l heq hunit =>
            htwo ⟨hu, tok', rest, l, heq, hunit⟩

/-! ## Literals -/

theorem Tokens.unique (h : Tokens p toks) (h' : Tokens p toks') : toks = toks' := by
  induction h generalizing toks' with
  | nil =>
    cases h' with
    | nil => rfl
    | cons htok => cases htok
  | cons htok hrest ih =>
    cases h' with
    | nil => cases htok
    | cons htok' hrest' =>
      obtain ⟨rfl, rfl⟩ := Prod.mk.inj (Option.some.inj (htok.symm.trans htok'))
      rw [ih hrest']

theorem Tokens.ranged (hcontent : Content p) (h : Tokens p toks) : ∀ tok ∈ toks, tok.Ranged := by
  induction h with
  | nil => simp
  | cons htok _ ih =>
    obtain ⟨hread, -⟩ := token_read hcontent htok
    exact List.forall_mem_cons.mpr ⟨hread.ranged, ih hread.content⟩

/-- Only line endings are read otherwise, where there is a token. -/
theorem Token.njs_eq_script_iff (h : tok.Ranged) :
    tok.njs = tok.script ↔ tok.isLineEnding = false := by
  cases tok with
  | carriageReturn lineFeed => cases lineFeed <;> simp [Token.njs, Token.script, Token.isLineEnding]
  | separator u =>
    obtain ⟨b, cs, hutf8, -⟩ := utf8_eq_cons h
    simp [Token.njs, Token.script, Token.isLineEnding, hutf8]
  | _ => exact iff_of_true rfl rfl

theorem njsBytes_eq_iff (hcontent : Content p) (h : Tokens p toks) :
    njsBytes (toks.map Token.njs) = scriptBytes (toks.map Token.script) ↔
      (∀ tok ∈ toks, tok.isLineEnding = false) ∧ ¬Json.EvenRun (toks.map Token.item) := by
  rw [(compares toks).same, Json.lostPairs_eq_zero_iff]
  have hiff : (∀ tok ∈ toks, tok.njs = tok.script) ↔ ∀ tok ∈ toks, tok.isLineEnding = false :=
    forall₂_congr fun tok htok => Token.njs_eq_script_iff (h.ranged hcontent tok htok)
  rw [hiff]

/-- A literal whose tokens are not too long is created from what the parser reads. -/
theorem escapeStringCreate_eq (hcontent : Content p) (h : Tokens p toks)
    (hlong : ∀ tok ∈ toks, tok.isLong = false) : ∃ us : List ℕ, (∀ u ∈ us, isScalar u = true) ∧
      njsBytes (toks.map Token.njs) = us.flatMap utf8 ∧
      calcLength p = .ok ((us.flatMap utf8).length, us.length) ∧
      escapeStringCreate p = .ok (us.flatMap utf8, us.length) := by
  obtain ⟨us, hscalar, hreads, hbytes⟩ := reads_tokens hcontent h hlong
  have hlt : ∀ u ∈ us, u < 0x110000 := fun u hu => isScalar_lt (hscalar u hu)
  have hsize : (us.map Utf8.size).sum = (us.flatMap utf8).length := by
    rw [List.length_flatMap]
    exact congrArg List.sum (List.map_congr_left fun u hu => (Json.utf8_length (hlt u hu)).symm)
  have hcalc : calcLength p = .ok ((us.flatMap utf8).length, us.length) := by
    rw [calcLength_reads hreads, hsize]
  have hcreate := escapeStringCreate_reads hreads
  rw [if_pos hlt] at hcreate
  exact ⟨us, hscalar, hbytes.symm, hcalc, hcreate⟩

/-- What is created is read by both functions. -/
theorem reads_of_created {result : List UInt8 × ℕ} (h : escapeStringCreate p = .ok result) :
    ∃ us, Reads 0 p us := by
  unfold escapeStringCreate at h
  cases hcalc : calcLength p with
  | error e =>
    rw [hcalc] at h
    cases h
  | ok counted => exact reads_of_calcLoop hcalc

/-- A literal that is created has tokens, none of which is too long. -/
theorem tokens_of_created (hcontent : Content p) {result : List UInt8 × ℕ}
    (h : escapeStringCreate p = .ok result) :
    ∃ toks, Tokens p toks ∧ ∀ tok ∈ toks, tok.isLong = false := by
  obtain ⟨us, hreads⟩ := reads_of_created h
  rw [escapeStringCreate_reads hreads] at h
  split_ifs at h with hlt
  exact tokens_of_reads hcontent hreads hlt

/-- A literal is created, or there is a syntax error. -/
theorem created_or_error (hcontent : Content p) : (∃ result, escapeStringCreate p = .ok result) ∨
    escapeStringCreate p = .error .syntaxError := by
  rcases @calcLoop_content p 0 p.length 0 0 hcontent le_rfl with herror | ⟨counted, hcalc⟩
  · refine Or.inr ?_
    rw [escapeStringCreate, calcLength, herror]
    rfl
  · obtain ⟨us, hreads⟩ := reads_of_calcLoop hcalc
    rw [escapeStringCreate_reads hreads]
    split_ifs
    · exact Or.inl ⟨_, rfl⟩
    · exact Or.inr rfl

/-- A text that the lexer finds is decoded exactly if the parser reads its tokens as ECMAScript
does, or if there are two errors in it one of which is that of the parser. -/
theorem literal_decodes_iff {text : List UInt8} (hutf8 : IsUtf8 text) (h : Accepted text) :
    Decodes text ↔ ∀ toks, Tokens text toks → ReadAlike toks := by
  have hcontent := content_of_accepted hutf8 h
  constructor
  · intro hdecodes toks htoks
    by_cases hlong : ∃ tok ∈ toks, tok.isLong = true
    · refine Or.inl ⟨hlong, ?_⟩
      by_contra hillegal
      obtain ⟨us, -, -, -, hcreate⟩ := hdecodes.value _ ⟨toks, htoks, fun tok htok =>
        Bool.eq_false_iff.mpr fun hbad => hillegal ⟨tok, htok, hbad⟩, rfl⟩
      obtain ⟨toks', htoks', hshort⟩ := tokens_of_created hcontent hcreate
      obtain rfl := htoks.unique htoks'
      obtain ⟨tok, htok, hbad⟩ := hlong
      rw [hshort tok htok] at hbad
      cases hbad
    · have hshort : ∀ tok ∈ toks, tok.isLong = false := fun tok htok =>
        Bool.eq_false_iff.mpr fun hbad => hlong ⟨tok, htok, hbad⟩
      obtain ⟨us, -, hnjs, -, hcreate⟩ := escapeStringCreate_eq hcontent htoks hshort
      by_cases hillegal : ∀ tok ∈ toks, tok.isIllegal = false
      · obtain ⟨us', -, hscript, -, hcreate'⟩ := hdecodes.value _ ⟨toks, htoks, hillegal, rfl⟩
        have hsame := (Prod.mk.inj (Except.ok.inj (hcreate.symm.trans hcreate'))).1
        obtain ⟨hlines, hpairs⟩ := (njsBytes_eq_iff hcontent htoks).mp (hnjs.trans hsame)
        exact Or.inr ⟨hillegal, hshort, hlines, hpairs⟩
      · have herror := hdecodes.error fun bytes hvalue => by
          obtain ⟨toks', htoks', hlegal, -⟩ := hvalue
          obtain rfl := htoks.unique htoks'
          exact hillegal hlegal
        rw [hcreate] at herror
        cases herror
  · intro halike
    constructor
    · rintro bytes ⟨toks, htoks, hlegal, rfl⟩
      rcases halike toks htoks with ⟨-, tok, htok, hbad⟩ | hplain
      · rw [hlegal tok htok] at hbad
        cases hbad
      · obtain ⟨us, hscalar, hnjs, hcalc, hcreate⟩ :=
          escapeStringCreate_eq hcontent htoks hplain.short
        have hsame := (njsBytes_eq_iff hcontent htoks).mpr ⟨hplain.lines, hplain.pairs⟩
        rw [← hsame, hnjs]
        exact ⟨us, hscalar, rfl, hcalc, hcreate⟩
    · intro hnone
      rcases created_or_error hcontent with ⟨result, hcreate⟩ | herror
      · obtain ⟨toks, htoks, hshort⟩ := tokens_of_created hcontent hcreate
        rcases halike toks htoks with ⟨⟨tok, htok, hbad⟩, -⟩ | hplain
        · rw [hshort tok htok] at hbad
          cases hbad
        · exact absurd ⟨toks, htoks, hplain.legal, rfl⟩ (hnone _)
      · exact herror

/-- A line feed behind a backslash and `n`. -/
theorem literal_decodes_newline :
    Decodes [92, 110] ↔ ∀ toks, Tokens [92, 110] toks → ReadAlike toks := by
  refine literal_decodes_iff ⟨[92, 110], by decide, by decide⟩ (Or.inl ⟨34, [92, 110, 34], ?_⟩)
  decide

/-- `\uD800\uD800\uDC00`. -/
def twoHighs : List UInt8 :=
  [92, 117, 68, 56, 48, 48, 92, 117, 68, 56, 48, 48, 92, 117, 68, 67, 48, 48]

/-- The second and the third unit of `\uD800\uD800\uDC00` are a pair, and all three are
replaced. -/
theorem twoHighs_not_decoded :
    ¬∀ text : List UInt8, IsUtf8 text → Accepted text → Decodes text := by
  intro h
  have hutf8 : IsUtf8 twoHighs := ⟨twoHighs.map UInt8.toNat, by decide, by decide⟩
  have haccepted : Accepted twoHighs := Or.inl ⟨34, twoHighs ++ [34], by decide⟩
  have htoks : Tokens twoHighs [.unicode 0xD800, .unicode 0xD800, .unicode 0xDC00] :=
    .cons (q := twoHighs.drop 6) (by decide)
      (.cons (q := twoHighs.drop 12) (by decide) (.cons (q := []) (by decide) .nil))
  obtain ⟨us, -, -, -, hcreate⟩ := (h _ hutf8 haccepted).value _ ⟨_, htoks, by decide, rfl⟩
  have hreplaced : escapeStringCreate twoHighs =
      .ok ([239, 191, 189, 239, 191, 189, 239, 191, 189], 3) := by decide
  have hbytes := (Prod.mk.inj (Except.ok.inj (hreplaced.symm.trans hcreate))).1
  exact absurd hbytes (by decide)

end Njs.Literal
