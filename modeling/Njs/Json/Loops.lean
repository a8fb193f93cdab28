import Njs.Json.Strings
import Njs.Json.Numerals

/-!
# Arrays and objects of JSON texts

The loops of `njs_json_parse_array` and `njs_json_parse_object` accept the arrays and objects
of the grammar if the function that parses their values accepts its values.
-/

namespace Njs.Json

/-- How the code reads the literals of a text. -/
def njs : Reading where
  numeral := Numeral.Scanned
  decode := decodeNjs

variable {ctx : Context} {value : Parser Tree} {V : Grammar Tree} {p q : List UInt8} {c : UInt8}
  {n : ℕ} {v : Tree} {vs : List Tree} {m : List UInt8 × Tree} {ms : List (List UInt8 × Tree)}

/-! ## Spaces -/

theorem spaces_skipSpace (p : List UInt8) : Spaces p (skipSpace p) :=
  ⟨p.takeWhile isSpace, fun _ hc => List.mem_takeWhile_imp hc,
    (List.takeWhile_append_dropWhile).symm⟩

theorem skipSpace_length (p : List UInt8) : (skipSpace p).length ≤ p.length :=
  (List.dropWhile_sublist isSpace).length_le

theorem Spaces.skip (h : Spaces p (c :: q)) (hc : isSpace c = false) : skipSpace p = c :: q := by
  obtain ⟨w, hw, rfl⟩ := h
  unfold skipSpace
  rw [List.dropWhile_append_of_pos hw, List.dropWhile_cons_of_neg (by simp [hc])]

theorem Spaces.skip_nil (h : Spaces p []) : skipSpace p = [] := by
  obtain ⟨w, hw, rfl⟩ := h
  unfold skipSpace
  rw [List.append_nil, List.dropWhile_eq_nil_iff]
  exact hw

theorem ends_of_isSpace (h : isSpace c = true) : Ends (c :: q) := by
  rintro d ⟨⟩
  unfold isSpace at h
  rcases of_decide_eq_true h with rfl | rfl | rfl | rfl <;> decide

/-- Spaces do not belong to a number. -/
theorem Spaces.ends (h : Spaces p q) (hq : Ends q) : Ends p := by
  obtain ⟨w, hw, rfl⟩ := h
  cases w with
  | nil => exact hq
  | cons c w => exact ends_of_isSpace (hw c List.mem_cons_self)

theorem Spaces.length (h : Spaces p q) : q.length ≤ p.length := by
  obtain ⟨w, -, rfl⟩ := h
  simp

/-- What follows a value in an array or an object does not belong to a number. -/
theorem ends_of_punctuation (h : c = valueSeparator ∨ c = endArray ∨ c = endObject) :
    Ends (c :: q) := by
  rintro d ⟨⟩
  rcases h with rfl | rfl | rfl <;> decide

/-! ## Parsers of values -/

/-- A function of the parser parses the values of the grammar. -/
structure Parses (ctx : Context) (value : Parser Tree) (V : Grammar Tree) : Prop where
  sound : ∀ p v q, value p = .ok (v, q) → V p v q
  complete : (∀ request left, ctx.grants request left = true) →
    ∀ p v q, V p v q → Ends q → value p = .ok (v, q)
  safe : ∀ c p, value (c :: p) ≠ .error .fault
  head : ∀ p v q, V p v q → ∃ c p', p = c :: p' ∧ isSpace c = false ∧ c ≠ endArray
  length : ∀ p v q, V p v q → q.length < p.length

/-! ## Arrays -/

theorem Elements.head (hV : Parses ctx value V) (h : Elements V p vs q) :
    ∃ c p', Spaces p (c :: p') ∧ isSpace c = false ∧ c ≠ endArray ∧
      ((∃ v p₂, vs = [v] ∧ V (c :: p') v p₂ ∧ Spaces p₂ (endArray :: q)) ∨
        ∃ v vs' p₂ p₃, vs = v :: vs' ∧ V (c :: p') v p₂ ∧ Spaces p₂ (valueSeparator :: p₃) ∧
          Elements V p₃ vs' q) := by
  cases h with
  | last hbefore hvalue hafter =>
    obtain ⟨c, p', rfl, hspace, hne⟩ := hV.head _ _ _ hvalue
    exact ⟨c, p', hbefore, hspace, hne, Or.inl ⟨_, _, rfl, hvalue, hafter⟩⟩
  | cons hbefore hvalue hafter hrest =>
    obtain ⟨c, p', rfl, hspace, hne⟩ := hV.head _ _ _ hvalue
    exact ⟨c, p', hbefore, hspace, hne, Or.inr ⟨_, _, _, _, rfl, hvalue, hafter, hrest⟩⟩

/-- What one round of the loop does with an element. -/
theorem parseElements_sound (hV : Parses ctx value V) {empty : Bool} {array : List Tree}
    (h : parseElements ctx value n empty array (c :: p) = .ok (vs, q)) :
    ∃ q', q = endArray :: q' ∧
      ((empty = true ∧ vs = array ∧ Spaces p (endArray :: q')) ∨
        ∃ ws, vs = array ++ ws ∧ Elements V p ws q') := by
  induction n generalizing empty array c p with
  | zero => cases h
  | succ n ih =>
    have hspaces := spaces_skipSpace p
    simp only [parseElements, List.tail_cons] at h
    cases hskip : skipSpace p with
    | nil =>
      rw [hskip] at h
      cases h
    | cons c' p₁ =>
      rw [hskip] at h hspaces
      simp only at h
      split_ifs at h with hend hempty
      · obtain ⟨rfl, rfl⟩ := Prod.mk.inj (Except.ok.inj h)
        subst hend
        exact ⟨p₁, rfl, Or.inl ⟨hempty, rfl, hspaces⟩⟩
      · cases hvalue : value (c' :: p₁) with
        | error e =>
          rw [hvalue] at h
          cases h
        | ok parsed =>
          obtain ⟨v, p₂⟩ := parsed
          have hv := hV.sound _ _ _ hvalue
          have hspaces' := spaces_skipSpace p₂
          rw [hvalue] at h
          simp only at h
          split_ifs at h with hgrant
          cases hskip' : skipSpace p₂ with
          | nil =>
            rw [hskip'] at h
            cases h
          | cons d p₃ =>
            rw [hskip'] at h hspaces'
            simp only at h
            split_ifs at h with hcomma hclose
            · subst hcomma
              obtain ⟨q', rfl, ⟨hfalse, -⟩ | ⟨ws, rfl, hrest⟩⟩ := ih h
              · cases hfalse
              · exact ⟨q', rfl, Or.inr ⟨v :: ws, by simp, .cons hspaces hv hspaces' hrest⟩⟩
            · subst hclose
              obtain ⟨rfl, rfl⟩ := Prod.mk.inj (Except.ok.inj h)
              exact ⟨p₃, rfl, Or.inr ⟨[v], rfl, .last hspaces hv hspaces'⟩⟩

theorem parseElements_complete (hV : Parses ctx value V)
    (hmemory : ∀ request left, ctx.grants request left = true) (h : Elements V p vs q)
    (empty : Bool) (array : List Tree) (hn : p.length < n) :
    parseElements ctx value n empty array (c :: p) = .ok (array ++ vs, endArray :: q) := by
  induction n generalizing p vs empty array c with
  | zero => omega
  | succ n ih =>
    obtain ⟨c', p', hbefore, hspace, hne, hcases⟩ := h.head hV
    simp only [parseElements, List.tail_cons, hbefore.skip hspace, if_neg hne, hmemory]
    rcases hcases with ⟨v, p₂, rfl, hvalue, hafter⟩ | ⟨v, vs', p₂, p₃, rfl, hvalue, hafter, hrest⟩
    · have hends := hafter.ends (ends_of_punctuation (Or.inr (Or.inl rfl)))
      rw [hV.complete hmemory _ _ _ hvalue hends]
      simp only [hafter.skip rfl]
      rfl
    · have hends := hafter.ends (ends_of_punctuation (Or.inl rfl))
      have hlength := hV.length _ _ _ hvalue
      have hbefore' := hbefore.length
      have hafter' := hafter.length
      rw [hV.complete hmemory _ _ _ hvalue hends]
      simp only [hafter.skip rfl, if_true, Bool.not_true, Bool.false_eq_true, if_false]
      simp only [List.length_cons] at hlength hbefore' hafter'
      rw [ih hrest false (array ++ [v]) (by omega), List.append_assoc]
      rfl

theorem parseElements_safe (hV : Parses ctx value V) {empty : Bool} {array : List Tree}
    (hn : p.length < n) : parseElements ctx value n empty array (c :: p) ≠ .error .fault := by
  induction n generalizing empty array c p with
  | zero => omega
  | succ n ih =>
    have hlength := skipSpace_length p
    simp only [parseElements, List.tail_cons]
    cases hskip : skipSpace p with
    | nil => exact nofun
    | cons c' p₁ =>
      rw [hskip] at hlength
      simp only
      split_ifs with hend hempty
      · exact nofun
      · exact nofun
      · cases hvalue : value (c' :: p₁) with
        | error e =>
          intro heq
          obtain rfl := Except.error.inj heq
          exact hV.safe _ _ hvalue
        | ok parsed =>
          obtain ⟨v, p₂⟩ := parsed
          have hless := hV.length _ _ _ (hV.sound _ _ _ hvalue)
          have hlength' := skipSpace_length p₂
          simp only
          split_ifs with hgrant
          · exact nofun
          · cases hskip' : skipSpace p₂ with
            | nil => exact nofun
            | cons d p₃ =>
              rw [hskip'] at hlength'
              simp only [List.length_cons] at hlength hlength' hless
              simp only
              split_ifs with hcomma hclose
              · exact ih (by omega)
              · exact nofun
              · exact nofun

theorem parseArray_sound (hV : Parses ctx value V) (h : parseArray ctx value (beginArray :: p) =
    .ok (v, q)) : ∃ vs, v = .array vs ∧ ArrayText V (beginArray :: p) vs q := by
  unfold parseArray at h
  split_ifs at h with hgrant
  cases hloop : parseElements ctx value (beginArray :: p).length true [] (beginArray :: p) with
  | error e =>
    rw [hloop] at h
    cases h
  | ok parsed =>
    obtain ⟨vs, p'⟩ := parsed
    rw [hloop] at h
    obtain ⟨rfl, rfl⟩ := Prod.mk.inj (Except.ok.inj h)
    obtain ⟨q', rfl, ⟨-, rfl, hspaces⟩ | ⟨ws, rfl, helements⟩⟩ := parseElements_sound hV hloop
    · exact ⟨[], rfl, .empty hspaces⟩
    · exact ⟨_, rfl, .elements helements⟩

theorem parseArray_complete (hV : Parses ctx value V)
    (hmemory : ∀ request left, ctx.grants request left = true) (h : ArrayText V p vs q) :
    parseArray ctx value p = .ok (.array vs, q) := by
  cases h with
  | empty h =>
    simp only [parseArray, hmemory, List.length_cons, parseElements, List.tail_cons, h.skip rfl,
      if_true]
    rfl
  | elements h =>
    simp only [parseArray, hmemory, List.length_cons,
      parseElements_complete hV hmemory h true [] (Nat.lt_succ_self _)]
    rfl

theorem parseArray_safe (hV : Parses ctx value V) :
    parseArray ctx value (c :: p) ≠ .error .fault := by
  unfold parseArray
  split_ifs with hgrant
  · exact nofun
  · cases hloop : parseElements ctx value (c :: p).length true [] (c :: p) with
    | error e =>
      intro heq
      obtain rfl := Except.error.inj heq
      exact parseElements_safe hV (Nat.lt_succ_self _) hloop
    | ok parsed => exact nofun

/-! ## Members -/

theorem parseColon_sound (h : parseColon ctx p = .ok q) :
    ∃ p', Spaces p (nameSeparator :: p') ∧ Spaces p' q ∧ q ≠ [] := by
  have hspaces := spaces_skipSpace p
  unfold parseColon at h
  split at h
  · cases h
  · rename_i c p' hskip
    split_ifs at h with hne
    rw [not_not] at hne
    subst hne
    have hspaces' := spaces_skipSpace p'
    split at h
    · cases h
    · rename_i hne
      obtain rfl := Except.ok.inj h
      exact ⟨p', hskip ▸ hspaces, hspaces', hne⟩

theorem parseColon_complete {p' : List UInt8} (h : Spaces p (nameSeparator :: p'))
    (h' : Spaces p' (c :: q)) (hc : isSpace c = false) : parseColon ctx p = .ok (c :: q) := by
  unfold parseColon
  rw [h.skip rfl]
  simp only [ne_eq, not_true_eq_false, if_false, h'.skip hc]

theorem parseColon_error {e : ParseError} (h : parseColon ctx p = .error e) : e ≠ .fault := by
  unfold parseColon at h
  split at h
  · obtain rfl := Except.error.inj h
    rintro ⟨⟩
  · split_ifs at h
    · obtain rfl := Except.error.inj h
      rintro ⟨⟩
    · split at h
      · obtain rfl := Except.error.inj h
        rintro ⟨⟩
      · cases h

/-- A member is parsed, or there is none. -/
theorem parseMember_sound (hV : Parses ctx value V)
    (h : parseMember ctx value (quotationMark :: p) = .ok (m, q)) :
    Member njs V (quotationMark :: p) m q := by
  rcases parseString_cases ctx quotationMark p with ⟨e, herror, -⟩ | ⟨items, p₁, hname, hstring⟩
  · simp only [parseMember, herror] at h
    cases h
  · simp only [parseMember, hstring, ok_bind] at h
    cases hcolon : parseColon ctx p₁ with
    | error e =>
      rw [hcolon] at h
      cases h
    | ok p₂ =>
      rw [hcolon] at h
      obtain ⟨p', hbefore, hafter, -⟩ := parseColon_sound hcolon
      cases hvalue : value p₂ with
      | error e =>
        rw [ok_bind, hvalue] at h
        cases h
      | ok parsed =>
        obtain ⟨v, p₃⟩ := parsed
        rw [ok_bind, hvalue] at h
        obtain ⟨rfl, rfl⟩ := Prod.mk.inj (Except.ok.inj h)
        exact .intro hname hbefore hafter (hV.sound _ _ _ hvalue)

theorem parseMember_complete (hV : Parses ctx value V)
    (hmemory : ∀ request left, ctx.grants request left = true) (h : Member njs V p m q)
    (hq : Ends q) : parseMember ctx value p = .ok (m, q) := by
  cases h with
  | @intro p p₁ p₂ p₃ q items v hname hcolon hbefore hvalue =>
    obtain ⟨c, p', rfl, hspace, -⟩ := hV.head _ _ _ hvalue
    rcases parseString_cases ctx quotationMark p with ⟨e, -, -, hnot⟩ |
      ⟨items', p₁', htext, hstring⟩
    · exact absurd hname (hnot hmemory items p₁)
    · obtain ⟨rfl, rfl⟩ := hname.unique htext
      simp only [parseMember, hstring, ok_bind, parseColon_complete hcolon hbefore hspace,
        hV.complete hmemory _ _ _ hvalue hq]
      rfl

theorem parseMember_safe (hV : Parses ctx value V) :
    parseMember ctx value (quotationMark :: p) ≠ .error .fault := by
  rcases parseString_cases ctx quotationMark p with ⟨e, herror, hne, -⟩ | ⟨items, p₁, -, hstring⟩
  · simp only [parseMember, herror]
    intro heq
    exact hne (Except.error.inj heq)
  · simp only [parseMember, hstring, ok_bind]
    cases hcolon : parseColon ctx p₁ with
    | error e =>
      intro heq
      exact parseColon_error hcolon (Except.error.inj heq)
    | ok p₂ =>
      obtain ⟨p', -, -, hne⟩ := parseColon_sound hcolon
      obtain ⟨c, p₂, rfl⟩ := List.exists_cons_of_ne_nil hne
      rw [ok_bind]
      cases hvalue : value (c :: p₂) with
      | error e =>
        intro heq
        obtain rfl := Except.error.inj heq
        exact hV.safe _ _ hvalue
      | ok parsed => exact nofun

theorem Member.length (hV : Parses ctx value V) (h : Member njs V p m q) :
    q.length < p.length := by
  cases h with
  | intro hname hcolon hbefore hvalue =>
    have h₁ := hname.length_lt
    have h₂ := hcolon.length
    have h₃ := hbefore.length
    have h₄ := hV.length _ _ _ hvalue
    simp only [List.length_cons] at h₂ ⊢
    omega

theorem addMember_error {object : List (List UInt8 × Tree)} {left : ℕ} {e : ParseError}
    (h : addMember ctx object m left = .error e) : e ≠ .fault := by
  unfold addMember at h
  split_ifs at h <;>
    (obtain rfl := Except.error.inj h; exact nofun)

theorem addMember_ok {object object' : List (List UInt8 × Tree)} {left : ℕ}
    (h : addMember ctx object m left = .ok object') : object' = insertMember object m := by
  unfold addMember at h
  split_ifs at h
  exact (Except.ok.inj h).symm

/-- The members of an object replace those before them with the same names. -/
theorem foldl_insertMember (object ms : List (List UInt8 × Tree)) :
    ms.foldl insertMember object =
      object.filter (fun other => other.1 ∉ ms.map Prod.fst) ++ lastWins ms := by
  induction ms generalizing object with
  | nil => simp [lastWins]
  | cons m ms ih =>
    rw [List.foldl_cons, ih, insertMember, List.filter_append, List.filter_filter]
    have hfilter : (fun other : List UInt8 × Tree =>
        decide (other.1 ∉ ms.map Prod.fst) && decide (other.1 ≠ m.1)) =
        fun other => decide (other.1 ∉ (m :: ms).map Prod.fst) := by
      funext other
      simp only [List.map_cons, List.mem_cons, not_or, Bool.decide_and]
      exact Bool.and_comm _ _
    rw [hfilter, List.append_assoc]
    congr 1
    by_cases hmem : m.1 ∈ ms.map Prod.fst
    · simp [lastWins, hmem]
    · simp [lastWins, hmem]

/-! ## Objects -/

theorem Members.head (h : Members njs V p ms q) :
    ∃ p', Spaces p (quotationMark :: p') ∧
      ((∃ m p₂, ms = [m] ∧ Member njs V (quotationMark :: p') m p₂ ∧ Spaces p₂ (endObject :: q)) ∨
        ∃ m ms' p₂ p₃, ms = m :: ms' ∧ Member njs V (quotationMark :: p') m p₂ ∧
          Spaces p₂ (valueSeparator :: p₃) ∧ Members njs V p₃ ms' q) := by
  cases h with
  | last hbefore hmember hafter =>
    obtain ⟨hname, hcolon, hspaces, hvalue⟩ := hmember
    exact ⟨_, hbefore, Or.inl ⟨_, _, rfl, .intro hname hcolon hspaces hvalue, hafter⟩⟩
  | cons hbefore hmember hafter hrest =>
    obtain ⟨hname, hcolon, hspaces, hvalue⟩ := hmember
    exact ⟨_, hbefore, Or.inr ⟨_, _, _, _, rfl, .intro hname hcolon hspaces hvalue, hafter, hrest⟩⟩

theorem parseMembers_sound (hV : Parses ctx value V) {prop : Bool}
    {object object' : List (List UInt8 × Tree)}
    (h : parseMembers ctx value n prop object (c :: p) = .ok (object', q)) :
    ∃ q', q = endObject :: q' ∧
      ((prop = false ∧ object' = object ∧ Spaces p (endObject :: q')) ∨
        ∃ ms, object' = ms.foldl insertMember object ∧ Members njs V p ms q') := by
  induction n generalizing prop object c p with
  | zero => cases h
  | succ n ih =>
    have hspaces := spaces_skipSpace p
    simp only [parseMembers, List.tail_cons] at h
    cases hskip : skipSpace p with
    | nil =>
      rw [hskip] at h
      cases h
    | cons c' p₁ =>
      rw [hskip] at h hspaces
      simp only at h
      split_ifs at h with hquote hend hprop
      · obtain ⟨rfl, rfl⟩ := Prod.mk.inj (Except.ok.inj h)
        subst hend
        exact ⟨p₁, rfl, Or.inl ⟨by simpa using hprop, rfl, hspaces⟩⟩
      · rw [not_not] at hquote
        subst hquote
        cases hmember : parseMember ctx value (quotationMark :: p₁) with
        | error e =>
          rw [hmember] at h
          cases h
        | ok parsed =>
          obtain ⟨m, p₂⟩ := parsed
          have hm := parseMember_sound hV hmember
          have hspaces' := spaces_skipSpace p₂
          rw [hmember] at h
          simp only at h
          cases hadd : addMember ctx object m p₂.length with
          | error e =>
            rw [hadd] at h
            cases h
          | ok added =>
            obtain rfl := addMember_ok hadd
            rw [hadd] at h
            simp only at h
            cases hskip' : skipSpace p₂ with
            | nil =>
              rw [hskip'] at h
              cases h
            | cons d p₃ =>
              rw [hskip'] at h hspaces'
              simp only at h
              split_ifs at h with hcomma hclose
              · subst hcomma
                obtain ⟨q', rfl, ⟨hfalse, -⟩ | ⟨ms, rfl, hrest⟩⟩ := ih h
                · cases hfalse
                · exact ⟨q', rfl, Or.inr ⟨m :: ms, rfl, .cons hspaces hm hspaces' hrest⟩⟩
              · subst hclose
                obtain ⟨rfl, rfl⟩ := Prod.mk.inj (Except.ok.inj h)
                exact ⟨p₃, rfl, Or.inr ⟨[m], rfl, .last hspaces hm hspaces'⟩⟩

theorem addMember_memory (hmemory : ∀ request left, ctx.grants request left = true)
    (object : List (List UInt8 × Tree)) (m : List UInt8 × Tree) (left : ℕ) :
    addMember ctx object m left = .ok (insertMember object m) := by
  simp [addMember, hmemory]

theorem parseMembers_complete (hV : Parses ctx value V)
    (hmemory : ∀ request left, ctx.grants request left = true) (h : Members njs V p ms q)
    (prop : Bool) (object : List (List UInt8 × Tree)) (hn : p.length < n) :
    parseMembers ctx value n prop object (c :: p) =
      .ok (ms.foldl insertMember object, endObject :: q) := by
  induction n generalizing p ms prop object c with
  | zero => omega
  | succ n ih =>
    obtain ⟨p', hbefore, hcases⟩ := h.head
    simp only [parseMembers, List.tail_cons, hbefore.skip rfl, ne_eq, not_true_eq_false, if_false]
    rcases hcases with ⟨m, p₂, rfl, hmember, hafter⟩ |
      ⟨m, ms', p₂, p₃, rfl, hmember, hafter, hrest⟩
    · have hends := hafter.ends (ends_of_punctuation (Or.inr (Or.inr rfl)))
      simp only [parseMember_complete hV hmemory hmember hends, addMember_memory hmemory,
        hafter.skip rfl]
      rfl
    · have hends := hafter.ends (ends_of_punctuation (Or.inl rfl))
      have hlength := hmember.length hV
      have hbefore' := hbefore.length
      have hafter' := hafter.length
      simp only [List.length_cons] at hlength hbefore' hafter'
      simp only [parseMember_complete hV hmemory hmember hends, addMember_memory hmemory,
        hafter.skip rfl, if_true]
      exact ih hrest true (insertMember object m) (by omega)

theorem parseMembers_safe (hV : Parses ctx value V) {prop : Bool}
    {object : List (List UInt8 × Tree)} (hn : p.length < n) :
    parseMembers ctx value n prop object (c :: p) ≠ .error .fault := by
  induction n generalizing prop object c p with
  | zero => omega
  | succ n ih =>
    have hlength := skipSpace_length p
    simp only [parseMembers, List.tail_cons]
    cases hskip : skipSpace p with
    | nil => exact nofun
    | cons c' p₁ =>
      rw [hskip] at hlength
      simp only
      split_ifs with hquote hend hprop
      · exact nofun
      · exact nofun
      · exact nofun
      · rw [not_not] at hquote
        subst hquote
        cases hmember : parseMember ctx value (quotationMark :: p₁) with
        | error e =>
          intro heq
          obtain rfl := Except.error.inj heq
          exact parseMember_safe hV hmember
        | ok parsed =>
          obtain ⟨m, p₂⟩ := parsed
          have hless := (parseMember_sound hV hmember).length hV
          have hlength' := skipSpace_length p₂
          simp only
          cases hadd : addMember ctx object m p₂.length with
          | error e =>
            intro heq
            exact addMember_error hadd (Except.error.inj heq)
          | ok added =>
            simp only
            cases hskip' : skipSpace p₂ with
            | nil => exact nofun
            | cons d p₃ =>
              rw [hskip'] at hlength'
              simp only [List.length_cons] at hlength hlength' hless
              simp only
              split_ifs with hcomma hclose
              · exact ih (by omega)
              · exact nofun
              · exact nofun

theorem parseObject_sound (hV : Parses ctx value V)
    (h : parseObject ctx value (beginObject :: p) = .ok (v, q)) :
    ∃ ms, v = .object (lastWins ms) ∧ ObjectText njs V (beginObject :: p) ms q := by
  unfold parseObject at h
  split_ifs at h with hgrant
  cases hloop : parseMembers ctx value (beginObject :: p).length false [] (beginObject :: p) with
  | error e =>
    rw [hloop] at h
    cases h
  | ok parsed =>
    obtain ⟨object, p'⟩ := parsed
    rw [hloop] at h
    obtain ⟨rfl, rfl⟩ := Prod.mk.inj (Except.ok.inj h)
    obtain ⟨q', rfl, ⟨-, rfl, hspaces⟩ | ⟨ms, rfl, hmembers⟩⟩ := parseMembers_sound hV hloop
    · exact ⟨[], rfl, .empty hspaces⟩
    · refine ⟨ms, ?_, .members hmembers⟩
      rw [foldl_insertMember]
      rfl

theorem parseObject_complete (hV : Parses ctx value V)
    (hmemory : ∀ request left, ctx.grants request left = true) (h : ObjectText njs V p ms q) :
    parseObject ctx value p = .ok (.object (lastWins ms), q) := by
  cases h with
  | empty h =>
    simp only [parseObject, hmemory, List.length_cons, parseMembers, List.tail_cons, h.skip rfl]
    rfl
  | members h =>
    simp only [parseObject, hmemory, List.length_cons,
      parseMembers_complete hV hmemory h false [] (Nat.lt_succ_self _), foldl_insertMember]
    rfl

theorem parseObject_safe (hV : Parses ctx value V) :
    parseObject ctx value (c :: p) ≠ .error .fault := by
  unfold parseObject
  split_ifs with hgrant
  · exact nofun
  · cases hloop : parseMembers ctx value (c :: p).length false [] (c :: p) with
    | error e =>
      intro heq
      obtain rfl := Except.error.inj heq
      exact parseMembers_safe hV (Nat.lt_succ_self _) hloop
    | ok parsed => exact nofun

end Njs.Json
