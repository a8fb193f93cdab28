import Njs.Json.Acceptance

/-!
# The value of a JSON text

A text of one reading is one of every reading with more numbers. So `JSON.parse()` meets RFC 8259
where it reads the text alike.
-/

namespace Njs.Json

variable {strtod : Strtod} {reading reading' : Reading} {V V' : Grammar Tree}
  {p q q' t : List UInt8} {v w : Tree} {vs vs' : List Tree} {d : ℕ}

/-! ## Other readings -/

theorem Scalar.reread (hreading : ∀ n, reading.numeral n → reading'.numeral n)
    (h : Scalar strtod reading p v q) : ∃ v', Scalar strtod reading' p v' q := by
  cases h with
  | null => exact ⟨_, .null q⟩
  | true => exact ⟨_, .true q⟩
  | false => exact ⟨_, .false q⟩
  | number minus n q hn => exact ⟨_, .number minus n q (hreading n hn)⟩
  | string h => exact ⟨_, .string h⟩

theorem Elements.reread (hV : ∀ p v q, V p v q → ∃ v', V' p v' q) (h : Elements V p vs q) :
    ∃ vs', Elements V' p vs' q := by
  induction h with
  | last hbefore hvalue hafter =>
    obtain ⟨v', hvalue'⟩ := hV _ _ _ hvalue
    exact ⟨_, .last hbefore hvalue' hafter⟩
  | cons hbefore hvalue hafter _ ih =>
    obtain ⟨v', hvalue'⟩ := hV _ _ _ hvalue
    obtain ⟨vs', hrest⟩ := ih
    exact ⟨_, .cons hbefore hvalue' hafter hrest⟩

theorem Member.reread {m : List UInt8 × Tree} (hV : ∀ p v q, V p v q → ∃ v', V' p v' q)
    (h : Member reading V p m q) : ∃ m', Member reading' V' p m' q := by
  obtain ⟨hname, hcolon, hbefore, hvalue⟩ := h
  obtain ⟨v', hvalue'⟩ := hV _ _ _ hvalue
  exact ⟨_, .intro hname hcolon hbefore hvalue'⟩

theorem Members.reread {ms : List (List UInt8 × Tree)}
    (hV : ∀ p v q, V p v q → ∃ v', V' p v' q) (h : Members reading V p ms q) :
    ∃ ms', Members reading' V' p ms' q := by
  induction h with
  | last hbefore hmember hafter =>
    obtain ⟨m', hmember'⟩ := hmember.reread hV
    exact ⟨_, .last hbefore hmember' hafter⟩
  | cons hbefore hmember hafter _ ih =>
    obtain ⟨m', hmember'⟩ := hmember.reread hV
    obtain ⟨ms', hrest⟩ := ih
    exact ⟨_, .cons hbefore hmember' hafter hrest⟩

/-- A text of a reading is one of every reading with more numbers. -/
theorem ValueText.reread (hreading : ∀ n, reading.numeral n → reading'.numeral n)
    (h : ValueText strtod reading d p v q) : ∃ v', ValueText strtod reading' d p v' q := by
  induction d generalizing p v q with
  | zero => exact Scalar.reread hreading h
  | succ d ih =>
    have hV : ∀ p v q, ValueText strtod reading d p v q →
        ∃ v', ValueText strtod reading' d p v' q := fun _ _ _ h => ih h
    rcases h with hscalar | ⟨vs, rfl, harray⟩ | ⟨ms, rfl, hobject⟩
    · obtain ⟨v', hv'⟩ := hscalar.reread hreading
      exact ⟨v', Or.inl hv'⟩
    · cases harray with
      | empty h => exact ⟨_, Or.inr (Or.inl ⟨_, rfl, .empty h⟩)⟩
      | elements h =>
        obtain ⟨vs', hvs'⟩ := h.reread hV
        exact ⟨_, Or.inr (Or.inl ⟨_, rfl, .elements hvs'⟩)⟩
    · cases hobject with
      | empty h => exact ⟨_, Or.inr (Or.inr ⟨_, rfl, .empty h⟩)⟩
      | members h =>
        have hread : ∃ ms', Members reading' (ValueText strtod reading' d) _ ms' q := h.reread hV
        obtain ⟨ms', hms'⟩ := hread
        exact ⟨_, Or.inr (Or.inr ⟨_, rfl, .members hms'⟩)⟩

theorem Denotes.reread (hreading : ∀ n, reading.numeral n → reading'.numeral n)
    (h : Denotes strtod reading t v) : ∃ v', Denotes strtod reading' t v' := by
  obtain ⟨p, q, hbefore, hvalue, hafter⟩ := h
  obtain ⟨v', hvalue'⟩ := ValueText.reread hreading hvalue
  exact ⟨v', p, q, hbefore, hvalue', hafter⟩

/-! ## First characters -/

/-- The first characters of values, however they are read. -/
def Begins (V : Grammar Tree) : Prop :=
  ∀ p v q, V p v q → ∃ c p', p = c :: p' ∧ isSpace c = false ∧ c ≠ endArray

/-- A value that is no array or object, by its first character. -/
def ScalarAt (strtod : Strtod) (reading : Reading) (c : UInt8) (p : List UInt8) (v : Tree)
    (q : List UInt8) : Prop :=
  if c = 110 then v = .null ∧ p = [117, 108, 108] ++ q
  else if c = 116 then v = .boolean true ∧ p = [114, 117, 101] ++ q
  else if c = 102 then v = .boolean false ∧ p = [97, 108, 115, 101] ++ q
  else if c = quotationMark then ∃ items, v = .string (reading.decode items) ∧ StringText p items q
  else ∃ minus n, v = .number (signed minus (strtod.parse n.text).1) ∧ reading.numeral n ∧
    c :: p = signText minus ++ (n.text ++ q)

theorem Scalar.at {c : UInt8} (hreading : ∀ n, reading.numeral n → n.Scanned)
    (h : Scalar strtod reading (c :: p) v q) : ScalarAt strtod reading c p v q := by
  generalize hp : c :: p = p' at h
  cases h with
  | null =>
    obtain ⟨rfl, rfl⟩ := List.cons.inj hp
    exact ⟨rfl, rfl⟩
  | true =>
    obtain ⟨rfl, rfl⟩ := List.cons.inj hp
    exact ⟨rfl, rfl⟩
  | false =>
    obtain ⟨rfl, rfl⟩ := List.cons.inj hp
    exact ⟨rfl, rfl⟩
  | string h =>
    obtain ⟨rfl, rfl⟩ := List.cons.inj hp
    exact ⟨_, rfl, h⟩
  | number minus n q hn =>
    have hsmall : c.toNat ≤ 57 ∧ c ≠ quotationMark := by
      obtain ⟨d, p', htext, hlow, hhigh⟩ := (hreading n hn).head
      cases minus with
      | true =>
        obtain ⟨rfl, -⟩ := List.cons.inj hp
        exact ⟨by decide, by decide⟩
      | false =>
        rw [htext] at hp
        obtain ⟨rfl, -⟩ := List.cons.inj hp
        refine ⟨hhigh, ?_⟩
        rintro rfl
        exact absurd hlow (by decide)
    have hne : ∀ d : UInt8, 57 < d.toNat → c ≠ d := by
      rintro d hd rfl
      omega
    simp only [ScalarAt, if_neg (hne 110 (by decide)), if_neg (hne 116 (by decide)),
      if_neg (hne 102 (by decide)), if_neg hsmall.2]
    exact ⟨minus, n, rfl, hn, by rw [hp, List.append_assoc]⟩

theorem ValueText.head (hreading : ∀ n, reading.numeral n → n.Scanned) (strtod : Strtod) (d : ℕ) :
    Begins (ValueText strtod reading d) := by
  intro p v q h
  obtain ⟨w, hw⟩ : ∃ w, ValueText strtod njs d p w q := h.reread hreading
  exact (parses_value ⟨strtod, [], fun _ _ => true⟩ d).head p w q hw

/-! ## Acceptance -/

/-- `JSON.parse()` meets RFC 8259 on a text if and only if the text is read alike. -/
theorem accepts_exactly_iff (strtod : Strtod) (t : List UInt8) :
    AcceptsExactly strtod t ↔ ReadAlike strtod t := by
  have hcomplete : ∀ v, Denotes strtod njs t v →
      jsonParse ⟨strtod, t, fun _ _ => true⟩ = .ok v := fun v h =>
    jsonParse_complete (fun _ _ => rfl) h
  constructor
  · rintro hexact ⟨v, hv⟩
    exact ⟨v, hexact.value v (hcomplete v hv), hv⟩
  · intro halike
    refine ⟨⟨?_, ?_⟩, fun v hparse => ?_, fun grants => jsonParse_safe _⟩
    · rintro ⟨v, hparse⟩
      obtain ⟨w, hw, -⟩ := halike ⟨v, jsonParse_sound hparse⟩
      exact ⟨w, hw⟩
    · rintro ⟨v, hv⟩
      have hread : ∃ w, Denotes strtod njs t w :=
        hv.reread fun n (hn : n.Rfc) => hn.toScanned
      obtain ⟨w, hw⟩ := hread
      exact ⟨w, hcomplete w hw⟩
    · obtain ⟨w, hw, hw'⟩ := halike ⟨v, jsonParse_sound hparse⟩
      have hsame := hcomplete w hw'
      rw [hparse] at hsame
      obtain rfl := Except.ok.inj hsame
      exact hw

/-- No number of RFC 8259 has the text `01`. -/
theorem not_rfc_leading_zero {n : Numeral} (hn : n.Rfc) : n.text ≠ [48, 49] := by
  intro htext
  unfold Numeral.text at htext
  obtain ⟨c, whole, hwhole⟩ := List.exists_cons_of_ne_nil hn.integer.1
  rw [hwhole, List.cons_append, List.cons_append] at htext
  obtain ⟨rfl, hrest⟩ := List.cons.inj htext
  rcases hn.integer.2 with hzero | hhead
  · rw [hwhole] at hzero
    obtain rfl : whole = [] := (List.cons.inj hzero).2
    rw [List.nil_append] at hrest
    cases hfraction : n.fraction with
    | some digits =>
      rw [hfraction] at hrest
      exact absurd (List.cons.inj hrest).1 (by decide)
    | none =>
      cases hexponent : n.exponent with
      | none =>
        rw [hfraction, hexponent] at hrest
        cases hrest
      | some exponent =>
        obtain ⟨e, sign, digits⟩ := exponent
        rw [hfraction, hexponent] at hrest
        obtain ⟨rfl, -⟩ := List.cons.inj hrest
        have hletter : (49 : UInt8) = 101 ∨ (49 : UInt8) = 69 := (hn.exponent _ hexponent).1
        exact absurd hletter (by decide)
  · rw [hwhole] at hhead
    exact hhead rfl

/-- The text `01` is no text of RFC 8259. -/
theorem not_denotes_leading_zero : ¬Denotes strtod rfc [48, 49] v := by
  rintro ⟨p, q, hbefore, hvalue, hafter⟩
  have hbegins : Begins (ValueText strtod rfc (maxDepth - 1)) :=
    ValueText.head (fun n (hn : n.Rfc) => hn.toScanned) strtod (maxDepth - 1)
  obtain ⟨c, p, rfl, hspace, -⟩ := hbegins _ _ _ hvalue
  have hskip : ([48, 49] : List UInt8) = c :: p := hbefore.skip hspace
  obtain ⟨rfl, rfl⟩ := List.cons.inj hskip
  rcases hvalue with hscalar | ⟨vs, -, harray⟩ | ⟨ms, -, hobject⟩
  · obtain ⟨minus, n, -, hn, htext⟩ := hscalar.at fun n (hn : n.Rfc) => hn.toScanned
    have hminus : minus = false := by
      cases minus with
      | false => rfl
      | true => exact absurd (List.cons.inj htext).1 (by decide)
    subst hminus
    -- What follows the number is not a digit, so the number is the whole text.
    have hends := hafter.ends .nil
    obtain ⟨d, digits, htext', hlow, hhigh⟩ := hn.toScanned.head
    rw [htext'] at htext
    obtain ⟨rfl, hrest⟩ := List.cons.inj htext
    cases digits with
    | nil =>
      obtain rfl : [49] = q := hrest
      exact absurd (hends 49 rfl).1 (by decide)
    | cons d digits =>
      obtain ⟨rfl, hnil⟩ := List.cons.inj hrest
      obtain rfl : digits = [] := (List.append_eq_nil_iff.mp hnil.symm).1
      exact not_rfc_leading_zero hn htext'
  · cases harray
  · cases hobject

/-- `JSON.parse("01")` returns a number. -/
theorem not_accepts_exactly : ¬∀ strtod t, AcceptsExactly strtod t := by
  intro hall
  have hdigits : ∀ c ∈ [48, 49], isDigit c = true :=
    List.forall_mem_cons.mpr ⟨rfl, List.forall_mem_singleton.mpr rfl⟩
  have hscanned : Numeral.Scanned ⟨[48, 49], none, none⟩ :=
    ⟨hdigits, nofun, nofun, by decide⟩
  have hdenotes : Denotes Strtod.unrounded njs [48, 49]
      (.number (signed false (Strtod.unrounded.parse [48, 49]).1)) :=
    ⟨[48, 49], [], ⟨[], nofun, rfl⟩, Or.inl (.number false ⟨[48, 49], none, none⟩ [] hscanned),
      ⟨[], nofun, rfl⟩⟩
  obtain ⟨v, hv⟩ := (hall Strtod.unrounded [48, 49]).accepts.mp
    ⟨_, jsonParse_complete (fun _ _ => rfl) hdenotes⟩
  exact not_denotes_leading_zero hv

end Njs.Json
