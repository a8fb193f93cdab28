import Njs.Json.Loops

/-!
# What `JSON.parse()` accepts

`JSON.parse()` accepts the texts of the grammar with the numbers of `njs_strtod`, and reads the
escapes of their strings two at a time. It meets RFC 8259 on a text if these make no difference
there.
-/

namespace Njs.Json

variable {ctx : Context} {value : Parser Tree} {strtod : Strtod} {p q : List UInt8} {c : UInt8}
    {d : ℕ} {v : Tree}

/-! ## Values that are no arrays or objects -/

theorem parseLiteral_sound {literal : List UInt8} {w : Tree}
    (h : parseLiteral ctx literal w p = .ok (v, q)) : p = literal ++ q ∧ v = w := by
  unfold parseLiteral at h
  split_ifs at h with hpre
  obtain ⟨rfl, rfl⟩ := Prod.mk.inj (Except.ok.inj h)
  obtain ⟨rest, rfl⟩ := List.isPrefixOf_iff_prefix.mp hpre
  exact ⟨by rw [List.drop_left], rfl⟩

theorem parseLiteral_complete (ctx : Context) (literal : List UInt8) (w : Tree) (q : List UInt8) :
    parseLiteral ctx literal w (literal ++ q) = .ok (w, q) := by
  unfold parseLiteral
  rw [if_pos (List.isPrefixOf_iff_prefix.mpr ⟨q, rfl⟩), List.drop_left]

theorem parseLiteral_safe {literal : List UInt8} {w : Tree} :
    parseLiteral ctx literal w p ≠ .error .fault := by
  unfold parseLiteral
  split_ifs <;> exact nofun

theorem parseNumber_sound (h : parseNumber ctx (c :: p) = .ok (v, q)) :
    Scalar ctx.strtod njs (c :: p) v q := by
  simp only [parseNumber] at h
  split_ifs at h with hminus hnil
  · rcases parseDigits_cases ctx true p with ⟨n, q', hn, rfl, hdigits⟩ | ⟨⟨m, i, herror⟩, -⟩
    · rw [hdigits] at h
      obtain ⟨rfl, rfl⟩ := Prod.mk.inj (Except.ok.inj h)
      subst hminus
      exact .number true n q' hn
    · rw [herror] at h
      cases h
  · rcases parseDigits_cases ctx false (c :: p) with ⟨n, q', hn, htext, hdigits⟩ |
      ⟨⟨m, i, herror⟩, -⟩
    · rw [hdigits] at h
      obtain ⟨rfl, rfl⟩ := Prod.mk.inj (Except.ok.inj h)
      rw [htext]
      exact .number false n q' hn
    · rw [herror] at h
      cases h

theorem parseNumber_complete {n : Numeral} (minus : Bool) (hn : n.Scanned) (hq : Ends q) :
    parseNumber ctx (signText minus ++ n.text ++ q) =
      .ok (.number (signed minus (ctx.strtod.parse n.text).1), q) := by
  obtain ⟨c, p, htext, hlow, hhigh⟩ := hn.head
  have hparse := fun minus => parseDigits_cases ctx minus (n.text ++ q)
  have hdigits : ∀ minus, parseDigits ctx minus (n.text ++ q) =
      .ok (.number (signed minus (ctx.strtod.parse n.text).1), q) := by
    intro minus
    have hne : q ≠ n.text ++ q := by
      intro heq
      have hlength := congrArg List.length heq
      rw [List.length_append, htext, List.length_cons] at hlength
      omega
    simp only [parseDigits, parse_text ctx.strtod hn hq, ne_eq, hne, not_false_eq_true, if_true]
  cases minus with
  | true =>
    have hne : n.text ++ q ≠ [] := by
      rw [htext]
      exact List.cons_ne_nil _ _
    simp only [signText, if_true, List.cons_append, List.nil_append, parseNumber, hne, if_false]
    exact hdigits true
  | false =>
    have hne : c ≠ minusSign := by
      rintro rfl
      exact absurd hlow (by decide)
    have hfalse := hdigits false
    rw [htext] at hfalse ⊢
    simp only [signText, Bool.false_eq_true, if_false, List.nil_append, List.cons_append,
      parseNumber, if_neg hne]
    exact hfalse

theorem parseNumber_safe : parseNumber ctx (c :: p) ≠ .error .fault := by
  have hdigits : ∀ minus p, parseDigits ctx minus p ≠ .error .fault := by
    intro minus p heq
    unfold parseDigits at heq
    simp only at heq
    split_ifs at heq
    cases heq
  simp only [parseNumber]
  split_ifs
  · rintro ⟨⟩
  · exact hdigits _ _
  · exact hdigits _ _

/-- The first characters of the values that are no arrays or objects. -/
theorem Scalar.head (h : Scalar strtod njs p v q) :
    ∃ c p', p = c :: p' ∧ c ≠ beginObject ∧ c ≠ beginArray ∧ c ≠ endArray ∧
      isSpace c = Bool.false := by
  cases h with
  | null | true | false => exact ⟨_, _, rfl, by decide, by decide, by decide, by decide⟩
  | string => exact ⟨_, _, rfl, by decide, by decide, by decide, by decide⟩
  | number minus n q hn =>
    obtain ⟨c, p', htext, hlow, hhigh⟩ := Numeral.Scanned.head hn
    cases minus with
    | true => exact ⟨_, _, rfl, by decide, by decide, by decide, by decide⟩
    | false =>
      refine ⟨c, p' ++ q, by rw [htext]; rfl, ?_, ?_, ?_, ?_⟩
      · rintro rfl
        exact absurd hhigh (by decide)
      · rintro rfl
        exact absurd hhigh (by decide)
      · rintro rfl
        exact absurd hhigh (by decide)
      · unfold isSpace
        rw [decide_eq_false_iff_not]
        rintro (rfl | rfl | rfl | rfl) <;> exact absurd hlow (by decide)

theorem Scalar.length (h : Scalar strtod njs p v q) : q.length < p.length := by
  cases h with
  | null | true | false =>
    rw [List.length_append]
    exact Nat.lt_add_of_pos_left (by decide)
  | string h => exact h.length_lt.trans (Nat.lt_succ_self _)
  | number minus n q hn =>
    obtain ⟨c, p', htext, -⟩ := Numeral.Scanned.head hn
    rw [htext]
    simp only [List.length_append, List.length_cons]
    omega

/-- The values that `njs_json_parse_value` does not leave to the functions for arrays and
objects. -/
theorem parseValue_scalar_sound (hobject : c ≠ beginObject) (harray : c ≠ beginArray)
    (h : parseValue ctx (d + 1) (c :: p) = .ok (v, q)) : Scalar ctx.strtod njs (c :: p) v q := by
  simp only [parseValue, if_neg hobject, if_neg harray] at h
  split_ifs at h with hstring htrue hfalse hnull hnumber
  · subst hstring
    rcases parseString_cases ctx quotationMark p with ⟨e, herror, -⟩ | ⟨items, q', htext, hparsed⟩
    · rw [herror] at h
      cases h
    · rw [hparsed] at h
      obtain ⟨rfl, rfl⟩ := Prod.mk.inj (Except.ok.inj h)
      exact .string htext
  · obtain ⟨htext, rfl⟩ := parseLiteral_sound h
    rw [htext]
    exact .true q
  · obtain ⟨htext, rfl⟩ := parseLiteral_sound h
    rw [htext]
    exact .false q
  · obtain ⟨htext, rfl⟩ := parseLiteral_sound h
    rw [htext]
    exact .null q
  · exact parseNumber_sound h

theorem parseValue_number (hlow : c = minusSign ∨ 46 ≤ c.toNat ∧ c.toNat ≤ 57) :
    parseValue ctx (d + 1) (c :: p) = parseNumber ctx (c :: p) := by
  have hne : ∀ c' : UInt8, (c'.toNat < 45 ∨ 57 < c'.toNat) → c ≠ c' := by
    rintro c' hc' rfl
    rcases hlow with rfl | hlow
    · exact absurd hc' (by decide)
    · omega
  have hnumber : c = minusSign ∨ (c.toNat : ℤ) - 48 ≤ 9 := hlow.imp_right fun h => by omega
  simp only [parseValue, if_neg (hne beginObject (by decide)), if_neg (hne beginArray (by decide)),
    if_neg (hne quotationMark (by decide)), if_neg (hne 116 (by decide)),
    if_neg (hne 102 (by decide)), if_neg (hne 110 (by decide)), if_pos hnumber]

theorem parseValue_scalar_complete (hmemory : ∀ request left, ctx.grants request left = true)
    (h : Scalar ctx.strtod njs p v q) (hq : Ends q) :
    parseValue ctx (d + 1) p = .ok (v, q) := by
  cases h with
  | null => exact parseLiteral_complete ctx [110, 117, 108, 108] .null q
  | true => exact parseLiteral_complete ctx [116, 114, 117, 101] (.boolean true) q
  | false => exact parseLiteral_complete ctx [102, 97, 108, 115, 101] (.boolean false) q
  | @string p _ items h =>
    rcases parseString_cases ctx quotationMark p with ⟨e, -, -, hnot⟩ | ⟨items', q', htext, hparsed⟩
    · exact absurd h (hnot hmemory items q)
    · obtain ⟨rfl, rfl⟩ := h.unique htext
      have hvalue : parseValue ctx (d + 1) (quotationMark :: p) =
        parseString ctx (quotationMark :: p) >>= fun r => pure (Tree.string r.1, r.2) := rfl
      rw [hvalue, hparsed]
      rfl
  | number minus n q hn =>
    have hparse := @parseNumber_complete ctx _ _ minus hn hq
    obtain ⟨c, p', htext, hlow, hhigh⟩ := Numeral.Scanned.head hn
    rw [← hparse]
    cases minus with
    | true => exact parseValue_number (Or.inl rfl)
    | false =>
      rw [htext]
      exact parseValue_number (Or.inr ⟨hlow, hhigh⟩)

theorem parseValue_scalar_safe (hobject : c ≠ beginObject) (harray : c ≠ beginArray) :
    parseValue ctx (d + 1) (c :: p) ≠ .error .fault := by
  simp only [parseValue, if_neg hobject, if_neg harray]
  split_ifs
  · rcases parseString_cases ctx c p with ⟨e, herror, hne, -⟩ | ⟨items, q', -, hparsed⟩
    · rw [herror]
      intro heq
      exact hne (Except.error.inj heq)
    · rw [hparsed]
      exact nofun
  · exact parseLiteral_safe
  · exact parseLiteral_safe
  · exact parseLiteral_safe
  · exact parseNumber_safe
  · exact nofun

/-! ## Values -/

theorem Elements.length {V : Grammar Tree} {vs : List Tree}
    (hV : ∀ p v q, V p v q → q.length < p.length) (h : Elements V p vs q) :
    q.length < p.length := by
  induction h with
  | last hbefore hvalue hafter =>
    have h₁ := hbefore.length
    have h₂ := hV _ _ _ hvalue
    have h₃ := hafter.length
    simp only [List.length_cons] at h₃
    omega
  | cons hbefore hvalue hafter _ ih =>
    have h₁ := hbefore.length
    have h₂ := hV _ _ _ hvalue
    have h₃ := hafter.length
    simp only [List.length_cons] at h₃
    omega

theorem Members.length {V : Grammar Tree} {ms : List (List UInt8 × Tree)}
    (hV : Parses ctx value V) (h : Members njs V p ms q) : q.length < p.length := by
  induction h with
  | last hbefore hmember hafter =>
    have h₁ := hbefore.length
    have h₂ := hmember.length hV
    have h₃ := hafter.length
    simp only [List.length_cons] at h₃
    omega
  | cons hbefore hmember hafter _ ih =>
    have h₁ := hbefore.length
    have h₂ := hmember.length hV
    have h₃ := hafter.length
    simp only [List.length_cons] at h₃
    omega

theorem ArrayText.text {V : Grammar Tree} {vs : List Tree} (hV : Parses ctx value V)
    (h : ArrayText V p vs q) : ∃ p', p = beginArray :: p' ∧ q.length < p.length := by
  cases h with
  | empty h =>
    have := h.length
    simp only [List.length_cons] at this
    exact ⟨_, rfl, by simp only [List.length_cons]; omega⟩
  | elements h => exact ⟨_, rfl, (h.length hV.length).trans (Nat.lt_succ_self _)⟩

theorem ObjectText.text {V : Grammar Tree} {ms : List (List UInt8 × Tree)}
    (hV : Parses ctx value V) (h : ObjectText njs V p ms q) :
    ∃ p', p = beginObject :: p' ∧ q.length < p.length := by
  cases h with
  | empty h =>
    have := h.length
    simp only [List.length_cons] at this
    exact ⟨_, rfl, by simp only [List.length_cons]; omega⟩
  | members h => exact ⟨_, rfl, (h.length hV).trans (Nat.lt_succ_self _)⟩

/-- `njs_json_parse_value` above the values that may be nested no deeper. -/
theorem parses_scalar (ctx : Context) :
    Parses ctx (parseValue ctx 1) (ValueText ctx.strtod njs 0) where
  sound := by
    intro p v q h
    cases p with
    | nil => cases h
    | cons c p =>
      by_cases hobject : c = beginObject
      · simp only [parseValue, if_pos hobject, nested, if_true] at h
        cases h
      · by_cases harray : c = beginArray
        · simp only [parseValue, if_neg hobject, if_pos harray, nested, if_true] at h
          cases h
        · exact parseValue_scalar_sound hobject harray h
  complete := fun hmemory p v q h hq => parseValue_scalar_complete hmemory h hq
  safe := by
    intro c p
    by_cases hobject : c = beginObject
    · simp only [parseValue, if_pos hobject, nested, if_true]
      exact nofun
    · by_cases harray : c = beginArray
      · simp only [parseValue, if_neg hobject, if_pos harray, nested, if_true]
        exact nofun
      · exact parseValue_scalar_safe hobject harray
  head := by
    intro p v q h
    obtain ⟨c, p', rfl, -, -, hend, hspace⟩ := Scalar.head h
    exact ⟨c, p', rfl, hspace, hend⟩
  length := fun p v q h => Scalar.length h

/-- One more level of arrays and objects. -/
theorem parses_nested (h : Parses ctx (parseValue ctx (d + 1)) (ValueText ctx.strtod njs d)) :
    Parses ctx (parseValue ctx (d + 2)) (ValueText ctx.strtod njs (d + 1)) where
  sound := by
    intro p v q hparse
    cases p with
    | nil => cases hparse
    | cons c p =>
      by_cases hobject : c = beginObject
      · subst hobject
        simp only [parseValue, if_true, nested, Nat.succ_ne_zero, if_false] at hparse
        exact Or.inr (Or.inr (parseObject_sound h hparse))
      · by_cases harray : c = beginArray
        · subst harray
          simp only [parseValue, if_neg hobject, if_true, nested, Nat.succ_ne_zero,
            if_false] at hparse
          exact Or.inr (Or.inl (parseArray_sound h hparse))
        · exact Or.inl (parseValue_scalar_sound hobject harray hparse)
  complete := by
    intro hmemory p v q htext hq
    rcases htext with hscalar | ⟨vs, rfl, harray⟩ | ⟨ms, rfl, hobject⟩
    · exact parseValue_scalar_complete hmemory hscalar hq
    · obtain ⟨p', rfl, -⟩ := harray.text h
      rw [← parseArray_complete h hmemory harray]
      rfl
    · obtain ⟨p', rfl, -⟩ := hobject.text h
      rw [← parseObject_complete h hmemory hobject]
      rfl
  safe := by
    intro c p
    by_cases hobject : c = beginObject
    · simp only [parseValue, if_pos hobject, nested, Nat.succ_ne_zero, if_false]
      exact parseObject_safe h
    · by_cases harray : c = beginArray
      · simp only [parseValue, if_neg hobject, if_pos harray, nested, Nat.succ_ne_zero, if_false]
        exact parseArray_safe h
      · exact parseValue_scalar_safe hobject harray
  head := by
    intro p v q htext
    rcases htext with hscalar | ⟨vs, rfl, harray⟩ | ⟨ms, rfl, hobject⟩
    · obtain ⟨c, p', rfl, -, -, hend, hspace⟩ := Scalar.head hscalar
      exact ⟨c, p', rfl, hspace, hend⟩
    · obtain ⟨p', rfl, -⟩ := harray.text h
      exact ⟨_, _, rfl, rfl, by decide⟩
    · obtain ⟨p', rfl, -⟩ := hobject.text h
      exact ⟨_, _, rfl, rfl, by decide⟩
  length := by
    intro p v q htext
    rcases htext with hscalar | ⟨vs, rfl, harray⟩ | ⟨ms, rfl, hobject⟩
    · exact Scalar.length hscalar
    · exact (harray.text h).choose_spec.2
    · exact (hobject.text h).choose_spec.2

/-- `njs_json_parse_value` parses the values of the grammar. -/
theorem parses_value (ctx : Context) (d : ℕ) :
    Parses ctx (parseValue ctx (d + 1)) (ValueText ctx.strtod njs d) := by
  induction d with
  | zero => exact parses_scalar ctx
  | succ d ih => exact parses_nested ih

/-! ## Texts -/

/-- What is parsed is denoted. -/
theorem jsonParse_sound (h : jsonParse ctx = .ok v) : Denotes ctx.strtod njs ctx.text v := by
  have hspaces := spaces_skipSpace ctx.text
  unfold jsonParse at h
  split at h
  · cases h
  · split at h
    · cases h
    · rename_i w q hparse
      have hspaces' := spaces_skipSpace q
      split at h
      · rename_i hnil
        obtain rfl := Except.ok.inj h
        rw [hnil] at hspaces'
        exact ⟨_, q, hspaces, (parses_value ctx 31).sound _ _ _ hparse, hspaces'⟩
      · cases h

/-- What is denoted is parsed. -/
theorem jsonParse_complete (hmemory : ∀ request left, ctx.grants request left = true)
    (h : Denotes ctx.strtod njs ctx.text v) : jsonParse ctx = .ok v := by
  obtain ⟨p, q, hbefore, hvalue, hafter⟩ := h
  obtain ⟨c, p', rfl, hspace, -⟩ := (parses_value ctx 31).head _ _ _ hvalue
  have hparse := (parses_value ctx 31).complete hmemory _ _ _ hvalue (hafter.ends .nil)
  unfold jsonParse
  simp only [hbefore.skip hspace, maxDepth, hparse, hafter.skip_nil]

/-- Nothing beyond the end of the text is read. -/
theorem jsonParse_safe (ctx : Context) : jsonParse ctx ≠ .error .fault := by
  unfold jsonParse
  split
  · exact nofun
  · rename_i hne
    obtain ⟨c, p, hskip⟩ := List.exists_cons_of_ne_nil hne
    split
    · rename_i e herror
      intro heq
      obtain rfl := Except.error.inj heq
      rw [hskip] at herror
      exact (parses_value ctx 31).safe c p herror
    · split
      · exact nofun
      · exact nofun

/-- `JSON.parse()` of a text returns the value that RFC 8259 gives it, and nothing else, and
reads nothing beyond its end. -/
structure AcceptsExactly (strtod : Strtod) (t : List UInt8) : Prop where
  accepts : (∃ v, jsonParse ⟨strtod, t, fun _ _ => true⟩ = .ok v) ↔ ∃ v, Denotes strtod rfc t v
  value : ∀ v, jsonParse ⟨strtod, t, fun _ _ => true⟩ = .ok v → Denotes strtod rfc t v
  inside : ∀ grants, jsonParse ⟨strtod, t, grants⟩ ≠ .error .fault

/-- If the text is one with the numbers of `njs_strtod`, its numbers are those of RFC 8259, and
its value does not depend on how the units of its strings are paired. -/
def ReadAlike (strtod : Strtod) (t : List UInt8) : Prop :=
  (∃ v, Denotes strtod njs t v) → ∃ v, Denotes strtod rfc t v ∧ Denotes strtod njs t v

end Njs.Json
