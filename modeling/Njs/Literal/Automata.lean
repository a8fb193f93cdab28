import Njs.Literal.Tokens
import Njs.Integers.Wrapping
import Mathlib.Tactic.Ring

/-!
# The two automata

Where `njs_parser_escape_string_calc_length` accepts an escape, the other function reads the same
one. So both see the same code points, the bytes of which are as many as were counted: the string
is never overrun.
-/

namespace Njs.Literal

open Json (escapeMark utf8)
open Integers (hexParse parseLoop positional parseLoop_eq)

variable {p q src : List UInt8} {s s' : Step} {n cpPair cp size length : ℕ} {us : List ℕ}

/-! ## Steps -/

theorem simpleEscape_lt {e : UInt8} : simpleEscape e ≥ 0x80 ↔ e ≥ 0x80 := by
  unfold simpleEscape
  split_ifs <;> simp_all

/-- The text is read by both functions in the same way, up to the character that an escape stands
for. -/
def Alike (s s' : Step) : Prop :=
  s' = s ∨ ∃ c d src, s = .char c src ∧ s' = .char d src ∧ c < 0x80 ∧ d < 0x80

theorem plainChar_alike (e : UInt8) (src : List UInt8) (h : plainChar e src = .ok s) :
    ∃ s', plainChar (simpleEscape e) src = .ok s' ∧ Alike s s' := by
  by_cases he : e ≥ 0x80
  · have hsame : simpleEscape e = e := by
      unfold simpleEscape
      split_ifs <;> first | rfl | (subst e; exact absurd he (by decide))
    exact ⟨s, by rw [hsame, h], Or.inl rfl⟩
  · have he' : ¬simpleEscape e ≥ 0x80 := fun h => he (simpleEscape_lt.mp h)
    rw [plainChar, if_neg he] at h
    obtain rfl := Except.ok.inj h
    have hlt : ∀ {c : UInt8}, ¬c ≥ 0x80 → c.toNat < 0x80 := fun hc =>
      UInt8.lt_iff_toNat_lt.mp (UInt8.not_le.mp hc)
    exact ⟨_, if_neg he', Or.inr ⟨_, _, src, rfl, rfl, hlt he, hlt he'⟩⟩

theorem fixed_alike {hexLength : ℕ} (h : calcFixed hexLength src = .ok s) :
    createFixed hexLength src = .ok s := by
  unfold calcFixed at h
  split_ifs at h with hlength hparsed
  have hrest : (hexParse (src.take hexLength)).2 = [] := not_not.mp hparsed
  rw [createFixed, if_neg hlength, hrest, List.nil_append]
  exact h

theorem braced_alike (h : calcBraced src = .ok s) : createBraced src = .ok s := by
  unfold calcBraced at h
  split_ifs at h
  exact h

theorem calcStep_plain {c : UInt8} (h : c ≠ escapeMark) :
    calcStep (c :: src) = plainChar c src := by
  cases src <;> simp [calcStep, h]

theorem createStep_plain {c : UInt8} (h : c ≠ escapeMark) :
    createStep (c :: src) = plainChar c src := by
  cases src <;> simp [createStep, h]

/-- The first function reads a character, or an escape behind a backslash. -/
theorem calcStep_cases (h : calcStep p = .ok s) :
    (∃ e src, p = escapeMark :: e :: src ∧ calcEscape e src = .ok s) ∨
      ∃ c src, p = c :: src ∧ c ≠ escapeMark ∧ plainChar c src = .ok s := by
  rcases p with - | ⟨c, src⟩
  · cases h
  · by_cases hescape : c = escapeMark
    · subst hescape
      cases src with
      | nil => cases h
      | cons e src => exact Or.inl ⟨e, src, rfl, h⟩
    · rw [calcStep_plain hescape] at h
      exact Or.inr ⟨c, src, rfl, hescape, h⟩

/-- What one of the functions accepts, the other reads alike. -/
theorem createStep_alike (h : calcStep p = .ok s) :
    ∃ s', createStep p = .ok s' ∧ Alike s s' := by
  rcases calcStep_cases h with ⟨e, src, rfl, hread⟩ | ⟨c, src, rfl, hescape, hread⟩
  · change ∃ s', createEscape e src = .ok s' ∧ Alike s s'
    unfold calcEscape at hread
    unfold createEscape
    split_ifs at hread ⊢
    · exact ⟨s, fixed_alike hread, Or.inl rfl⟩
    · exact ⟨s, braced_alike hread, Or.inl rfl⟩
    · exact ⟨s, fixed_alike hread, Or.inl rfl⟩
    · exact ⟨s, hread, Or.inl rfl⟩
    · exact ⟨s, hread, Or.inl rfl⟩
    · exact plainChar_alike e src hread
  · exact ⟨s, (createStep_plain hescape).trans hread, Or.inl rfl⟩

/-- The text behind what is read. -/
def Step.rest : Step → List UInt8
  | skip src | char _ src | hex _ src => src

theorem hexParse_eq (src : List UInt8) : hexParse src =
    (positional Str.charToHex 16 0 (src.takeWhile fun c => (Str.charToHex c).isSome) % 2 ^ 64,
      src.dropWhile fun c => (Str.charToHex c).isSome) :=
  parseLoop_eq (Nat.two_pow_pos 64)

theorem hexParse_length (src : List UInt8) : (hexParse src).2.length ≤ src.length := by
  rw [hexParse_eq]
  exact List.length_dropWhile_le _ src

theorem plainChar_length {c : UInt8} (h : plainChar c src = .ok s) :
    s.rest.length ≤ src.length := by
  unfold plainChar at h
  split_ifs at h with hc
  · cases hdecode : Utf8.safeDecode2 (c :: src) with
    | none =>
      rw [hdecode] at h
      cases h
    | some result =>
      rw [hdecode] at h
      obtain rfl := Except.ok.inj h
      have hsafe : Utf8.safeDecode (c :: src) = some result := by
        have hnot : ¬c.toNat < 0x80 := not_lt.mpr (UInt8.le_iff_toNat_le.mp hc)
        rw [Utf8.safeDecode, if_neg hnot, hdecode]
      obtain ⟨u, rest, hdecode', hsplit, -⟩ := Utf8.safeDecode_spec (List.cons_ne_nil c src)
      obtain rfl := Option.some.inj (hsafe.symm.trans hdecode')
      have hlength := congrArg List.length hsplit
      rw [Utf8.maximalPrefix, List.length_append, List.length_cons, List.length_cons] at hlength
      change rest.length ≤ src.length
      omega
  · obtain rfl := Except.ok.inj h
    exact le_rfl

theorem calcFixed_length {k : ℕ} (h : calcFixed k src = .ok s) : s.rest.length ≤ src.length := by
  unfold calcFixed at h
  split_ifs at h
  obtain rfl := Except.ok.inj h
  exact (List.length_drop ..).trans_le (Nat.sub_le ..)

theorem skipLineFeed_length (src : List UInt8) : (skipLineFeed src).length ≤ src.length := by
  unfold skipLineFeed
  split_ifs
  · rw [List.length_tail]
    omega
  · exact le_rfl

theorem calcEscape_length {e : UInt8} (h : calcEscape e src = .ok s) :
    s.rest.length ≤ src.length := by
  unfold calcEscape at h
  split_ifs at h
  · exact calcFixed_length h
  · unfold calcBraced at h
    split_ifs at h
    obtain rfl := Except.ok.inj h
    have hparse := hexParse_length src.tail
    simp only [Step.rest, List.length_tail] at hparse ⊢
    omega
  · exact calcFixed_length h
  · obtain rfl := Except.ok.inj h
    exact skipLineFeed_length src
  · obtain rfl := Except.ok.inj h
    exact le_rfl
  · exact plainChar_length h

/-- Every iteration of the first function gets on. -/
theorem calcStep_length (h : calcStep p = .ok s) : s.rest.length < p.length := by
  rcases calcStep_cases h with ⟨e, src, rfl, hread⟩ | ⟨c, src, rfl, -, hread⟩
  · have hlength := calcEscape_length hread
    simp only [List.length_cons]
    omega
  · have hlength := plainChar_length hread
    rw [List.length_cons]
    omega

/-- Digits are less than a power of 16. -/
theorem positional_lt {start : ℕ} (digits : List UInt8) :
    positional Str.charToHex 16 start digits < (start + 1) * 16 ^ digits.length := by
  induction digits generalizing start with
  | nil => simp [positional]
  | cons c digits ih =>
    have hdigit : (Str.charToHex c).getD 0 < 16 := by
      cases hc : Str.charToHex c with
      | none => exact Nat.succ_pos 15
      | some d => exact Str.charToHex_lt c d hc
    calc positional Str.charToHex 16 start (c :: digits)
        = positional Str.charToHex 16 (start * 16 + (Str.charToHex c).getD 0) digits := rfl
      _ < (start * 16 + (Str.charToHex c).getD 0 + 1) * 16 ^ digits.length := ih
      _ ≤ (start + 1) * 16 * 16 ^ digits.length := Nat.mul_le_mul_right _ (by omega)
      _ = (start + 1) * 16 ^ (c :: digits).length := by rw [List.length_cons]; ring

theorem hexParse_value (h : src.length - (hexParse src).2.length ≤ 6) :
    (hexParse src).1 = positional Str.charToHex 16 0
      (src.takeWhile fun c => (Str.charToHex c).isSome) ∧ (hexParse src).1 < 2 ^ 24 := by
  have hsplit := congrArg List.length
    (List.takeWhile_append_dropWhile (p := fun c => (Str.charToHex c).isSome) (l := src))
  rw [hexParse_eq] at h ⊢
  simp only [List.length_append] at hsplit h ⊢
  have hbound := @positional_lt 0 (src.takeWhile fun c => (Str.charToHex c).isSome)
  have hpow : 16 ^ (src.takeWhile fun c => (Str.charToHex c).isSome).length ≤ 16 ^ 6 :=
    Nat.pow_le_pow_right (by omega) (by omega)
  have hmod := Nat.mod_eq_of_lt (a := positional Str.charToHex 16 0
    (src.takeWhile fun c => (Str.charToHex c).isSome)) (b := 2 ^ 64) (by omega)
  rw [hmod]
  exact ⟨rfl, by omega⟩

theorem calcFixed_hex_lt {k : ℕ} (hk : k ≤ 6) (h : calcFixed k src = .ok (.hex cp q)) :
    cp < 2 ^ 24 := by
  unfold calcFixed at h
  split_ifs at h
  obtain ⟨rfl, -⟩ := Step.hex.inj (Except.ok.inj h)
  have hlength := List.length_take_le k src
  exact (hexParse_value (by omega)).2

theorem plainChar_ne_hex {c : UInt8} : plainChar c src ≠ .ok (.hex cp q) := by
  intro h
  unfold plainChar at h
  split_ifs at h
  · cases hdecode : Utf8.safeDecode2 (c :: src) with
    | none =>
      rw [hdecode] at h
      cases h
    | some result =>
      rw [hdecode] at h
      cases h
  · cases h

/-- The values of escapes that the first function accepts have six digits at most. -/
theorem calcStep_hex_lt (h : calcStep p = .ok (.hex cp q)) : cp < 2 ^ 24 := by
  rcases calcStep_cases h with ⟨e, src, rfl, hread⟩ | ⟨c, src, rfl, -, hread⟩
  · unfold calcEscape at hread
    split_ifs at hread
    · exact calcFixed_hex_lt (by omega) hread
    · unfold calcBraced at hread
      split_ifs at hread with hdigits
      obtain ⟨rfl, -⟩ := Step.hex.inj (Except.ok.inj hread)
      exact (hexParse_value (by omega)).2
    · exact calcFixed_hex_lt (by omega) hread
    · cases hread
    · cases hread
    · exact absurd hread plainChar_ne_hex
  · exact absurd hread plainChar_ne_hex

theorem plainChar_char_lt {c : UInt8} {u : ℕ} (h : plainChar c src = .ok (.char u q)) :
    u < 2 ^ 32 := by
  unfold plainChar at h
  split_ifs at h with hc
  · cases hdecode : Utf8.safeDecode2 (c :: src) with
    | none =>
      rw [hdecode] at h
      cases h
    | some result =>
      rw [hdecode] at h
      obtain ⟨rfl, rfl⟩ := Step.char.inj (Except.ok.inj h)
      have hsafe : Utf8.safeDecode (c :: src) = some result := by
        have hnot : ¬c.toNat < 0x80 := not_lt.mpr (UInt8.le_iff_toNat_le.mp hc)
        rw [Utf8.safeDecode, if_neg hnot, hdecode]
      obtain ⟨u, rest, hdecode', -⟩ := Utf8.safeDecode_spec (List.cons_ne_nil c src)
      obtain rfl := Option.some.inj (hsafe.symm.trans hdecode')
      exact u.isLt.trans (by decide)
  · obtain ⟨rfl, -⟩ := Step.char.inj (Except.ok.inj h)
    exact c.toNat_lt.trans (by decide)

/-- The characters that the first function reads are code points. -/
theorem calcStep_char_lt {u : ℕ} (h : calcStep p = .ok (.char u q)) : u < 2 ^ 32 := by
  rcases calcStep_cases h with ⟨e, src, rfl, hread⟩ | ⟨c, src, rfl, -, hread⟩
  · unfold calcEscape at hread
    have hfixed : ∀ {k}, calcFixed k src ≠ .ok (.char u q) := by
      intro k h
      unfold calcFixed at h
      split_ifs at h
      cases h
    split_ifs at hread
    · exact absurd hread hfixed
    · unfold calcBraced at hread
      split_ifs at hread
      cases hread
    · exact absurd hread hfixed
    · cases hread
    · cases hread
    · exact plainChar_char_lt hread
  · exact plainChar_char_lt hread

/-! ## Loops -/

/-- Both functions read a text as these code points, with the first half of a pair before it. -/
inductive Reads : ℕ → List UInt8 → List ℕ → Prop
  | nil (cpPair : ℕ) : Reads cpPair [] []
  | skip {cpPair : ℕ} {p q : List UInt8} {us : List ℕ} (hcalc : calcStep p = .ok (.skip q))
    (hcreate : createStep p = .ok (.skip q)) (hrest : Reads cpPair q us) : Reads cpPair p us
  | char {cpPair c d : ℕ} {p q : List UInt8} {us : List ℕ} (hcalc : calcStep p = .ok (.char c q))
    (hcreate : createStep p = .ok (.char d q)) (hsize : Utf8.size c = Utf8.size d)
    (hlt : d < 2 ^ 32) (hrest : Reads cpPair q us) : Reads cpPair p (d :: us)
  | hex {cpPair cp : ℕ} {p q : List UInt8} {us : List ℕ} (hcalc : calcStep p = .ok (.hex cp q))
    (hcreate : createStep p = .ok (.hex cp q)) (hrest : Reads (pairing cpPair cp q).1 q us) :
    Reads cpPair p ((pairing cpPair cp q).2 ++ us)

theorem ne_nil_of_calcStep (h : calcStep p = .ok s) : p ≠ [] := by
  rintro rfl
  cases h

/-- The first function counts the code points and their bytes. -/
theorem calcLoop_reads (h : Reads cpPair p us) (hn : p.length ≤ n) :
    calcLoop n cpPair size length p =
      .ok (size + (us.map Utf8.size).sum, length + us.length) := by
  induction h generalizing n size length with
  | nil cpPair => cases n <;> simp [calcLoop]
  | skip hcalc hcreate hrest ih =>
    have hlength := calcStep_length hcalc
    obtain - | n := n
    · omega
    · rw [calcLoop, if_neg (ne_nil_of_calcStep hcalc), hcalc]
      exact ih (Nat.le_of_lt_succ (lt_of_lt_of_le hlength hn))
  | char hcalc hcreate hsize hlt hrest ih =>
    have hlength := calcStep_length hcalc
    obtain - | n := n
    · omega
    · rw [calcLoop, if_neg (ne_nil_of_calcStep hcalc), hcalc]
      refine (ih (Nat.le_of_lt_succ (lt_of_lt_of_le hlength hn))).trans ?_
      rw [List.map_cons, List.sum_cons, List.length_cons, hsize, Nat.add_assoc, Nat.add_assoc,
        Nat.add_comm 1]
  | hex hcalc hcreate hrest ih =>
    have hlength := calcStep_length hcalc
    obtain - | n := n
    · omega
    · rw [calcLoop, if_neg (ne_nil_of_calcStep hcalc), hcalc]
      refine (ih (Nat.le_of_lt_succ (lt_of_lt_of_le hlength hn))).trans ?_
      rw [List.map_append, List.sum_append, List.length_append, Nat.add_assoc, Nat.add_assoc]

/-- `njs_utf8_encode` where there is room. -/
theorem encodePoint_eq {dst : List UInt8} {u : ℕ} (hu : u < 2 ^ 32)
    (hroom : dst.length + Utf8.size u ≤ size) : encodePoint size dst u =
      if u < 0x110000 then .ok (dst ++ utf8 u) else .error .syntaxError := by
  rw [encodePoint, Nat.mod_eq_of_lt hu]
  split_ifs with hlt
  · obtain ⟨bytes, hbytes⟩ := Option.isSome_iff_exists.mp (Utf8.encode_isSome_iff.mpr hlt)
    simp only [hbytes, utf8, Option.getD_some]
    rw [if_pos (by rw [Utf8.encode_length hbytes]; exact hroom)]
  · have hnone : Utf8.encode u = none := by
      rw [Option.eq_none_iff_forall_ne_some]
      intro bytes hbytes
      exact hlt (Utf8.encode_isSome_iff.mp (hbytes ▸ rfl))
    simp only [hnone]

theorem encodePoints_eq {dst : List UInt8} (hus : ∀ u ∈ us, u < 2 ^ 32)
    (hroom : dst.length + (us.map Utf8.size).sum ≤ size) : us.foldlM (encodePoint size) dst =
      if ∀ u ∈ us, u < 0x110000 then .ok (dst ++ us.flatMap utf8) else .error .syntaxError := by
  induction us generalizing dst with
  | nil => simp [pure, Except.pure]
  | cons u us ih =>
    rw [List.map_cons, List.sum_cons] at hroom
    rw [List.foldlM_cons, encodePoint_eq (hus u List.mem_cons_self) (by omega)]
    by_cases hu : u < 0x110000
    · have hlength := Json.utf8_length hu
      rw [if_pos hu, ok_bind, ih (fun v hv => hus v (List.mem_cons_of_mem u hv))
        (by rw [List.length_append]; omega)]
      simp only [List.forall_mem_cons, hu, true_and, List.flatMap_cons, List.append_assoc]
    · rw [if_neg hu, if_neg fun hall => hu (hall u List.mem_cons_self)]
      rfl

theorem pairing_bounds (hpair : cpPair ≤ 0xDBFF) (hcp : cp < 2 ^ 24) :
    (pairing cpPair cp q).1 ≤ 0xDBFF ∧ ∀ u ∈ (pairing cpPair cp q).2, u < 2 ^ 32 := by
  have hreplacement : Utf8.replacement < 2 ^ 32 := Utf8.replacement_lt.trans (by decide)
  unfold pairing
  split_ifs
  · refine ⟨by omega, List.forall_mem_singleton.mpr ?_⟩
    unfold Json.pairCode
    omega
  · exact ⟨by omega, List.forall_mem_cons.mpr ⟨hreplacement,
      List.forall_mem_singleton.mpr hreplacement⟩⟩
  · exact ⟨by omega, List.forall_mem_cons.mpr ⟨hreplacement,
      List.forall_mem_singleton.mpr (by omega)⟩⟩
  · exact ⟨by omega, by simp⟩
  · exact ⟨by omega, List.forall_mem_singleton.mpr hreplacement⟩
  · exact ⟨by omega, List.forall_mem_singleton.mpr (by omega)⟩

/-- The second function writes the bytes of the code points, all of which have room. -/
theorem createLoop_reads (h : Reads cpPair p us) (hpair : cpPair ≤ 0xDBFF) (hn : p.length ≤ n)
    {dst : List UInt8} (hroom : dst.length + (us.map Utf8.size).sum ≤ size) :
    createLoop size n cpPair dst p =
      if ∀ u ∈ us, u < 0x110000 then .ok (dst ++ us.flatMap utf8) else .error .syntaxError := by
  induction h generalizing n dst with
  | nil cpPair => cases n <;> simp [createLoop]
  | skip hcalc hcreate hrest ih =>
    have hlength := calcStep_length hcalc
    obtain - | n := n
    · omega
    · rw [createLoop, if_neg (ne_nil_of_calcStep hcalc), hcreate]
      exact ih hpair (Nat.le_of_lt_succ (lt_of_lt_of_le hlength hn)) hroom
  | @char cpPair c d p q us hcalc hcreate hsize hlt hrest ih =>
    have hlength := calcStep_length hcalc
    rw [List.map_cons, List.sum_cons] at hroom
    obtain - | n := n
    · omega
    · rw [createLoop, if_neg (ne_nil_of_calcStep hcalc), hcreate]
      change (encodePoint size dst d).bind (createLoop size n cpPair · q) = _
      rw [encodePoint_eq hlt (by omega)]
      by_cases hd : d < 0x110000
      · have hbytes := Json.utf8_length hd
        rw [if_pos hd]
        refine (ih hpair (Nat.le_of_lt_succ (lt_of_lt_of_le hlength hn))
          (by rw [List.length_append]; omega)).trans ?_
        simp only [List.forall_mem_cons, hd, true_and, List.flatMap_cons, List.append_assoc]
      · rw [if_neg hd, if_neg fun hall => hd (hall d List.mem_cons_self)]
        rfl
  | @hex cpPair cp p q us hcalc hcreate hrest ih =>
    have hlength := calcStep_length hcalc
    obtain ⟨hnext, hlt⟩ := @pairing_bounds q _ _ hpair (calcStep_hex_lt hcalc)
    rw [List.map_append, List.sum_append] at hroom
    obtain - | n := n
    · omega
    · rw [createLoop, if_neg (ne_nil_of_calcStep hcalc), hcreate]
      change ((pairing cpPair cp q).2.foldlM (encodePoint size) dst).bind
        (createLoop size n (pairing cpPair cp q).1 · q) = _
      rw [encodePoints_eq hlt (by omega)]
      by_cases hall : ∀ u ∈ (pairing cpPair cp q).2, u < 0x110000
      · have hbytes : ((pairing cpPair cp q).2.flatMap utf8).length =
            ((pairing cpPair cp q).2.map Utf8.size).sum := by
          rw [List.length_flatMap]
          exact congrArg List.sum (List.map_congr_left fun u hu => Json.utf8_length (hall u hu))
        rw [if_pos hall]
        refine (ih hnext (Nat.le_of_lt_succ (lt_of_lt_of_le hlength hn))
          (by rw [List.length_append]; omega)).trans ?_
        have hiff : (∀ u ∈ (pairing cpPair cp q).2 ++ us, u < 0x110000) ↔
            ∀ u ∈ us, u < 0x110000 :=
          ⟨fun h u hu => h u (List.mem_append_right _ hu), fun h u hu =>
            (List.mem_append.mp hu).elim (hall u) (h u)⟩
        simp only [hiff, List.flatMap_append, List.append_assoc]
      · rw [if_neg hall, if_neg fun h => hall fun u hu => h u (List.mem_append_left us hu)]
        rfl

/-- The first function accepts a text only if both read it. -/
theorem reads_of_calcLoop {result : ℕ × ℕ}
    (h : calcLoop n cpPair size length p = .ok result) : ∃ us, Reads cpPair p us := by
  induction n generalizing cpPair size length p with
  | zero =>
    unfold calcLoop at h
    split_ifs at h with hnil
    exact ⟨[], hnil ▸ .nil cpPair⟩
  | succ n ih =>
    unfold calcLoop at h
    split_ifs at h with hnil
    · exact ⟨[], hnil ▸ .nil cpPair⟩
    · cases hcalc : calcStep p with
      | error e =>
        rw [hcalc] at h
        cases h
      | ok s =>
        rw [hcalc] at h
        obtain ⟨s', hcreate, hsame⟩ := createStep_alike hcalc
        cases s with
        | skip q =>
          obtain ⟨us, hus⟩ := ih h
          rcases hsame with rfl | ⟨c, d, src, ⟨⟩, -⟩
          exact ⟨us, .skip hcalc hcreate hus⟩
        | char c q =>
          obtain ⟨us, hus⟩ := ih h
          rcases hsame with rfl | ⟨c', d, src, heq, rfl, hc, hd⟩
          · exact ⟨c :: us, .char hcalc hcreate rfl (calcStep_char_lt hcalc) hus⟩
          · obtain ⟨rfl, rfl⟩ := Step.char.inj heq
            refine ⟨d :: us, .char hcalc hcreate ?_ (by omega) hus⟩
            rw [Utf8.size, Utf8.size, if_pos hc, if_pos hd]
        | hex cp q =>
          obtain ⟨us, hus⟩ := ih h
          rcases hsame with rfl | ⟨c, d, src, ⟨⟩, -⟩
          exact ⟨_, .hex hcalc hcreate hus⟩

theorem calcLength_reads (h : Reads 0 p us) :
    calcLength p = .ok ((us.map Utf8.size).sum, us.length) := by
  have hloop := @calcLoop_reads p p.length 0 0 0 us h le_rfl
  rwa [Nat.zero_add, Nat.zero_add] at hloop

/-- A text that both functions read is created, unless there is what is no code point. -/
theorem escapeStringCreate_reads (h : Reads 0 p us) : escapeStringCreate p =
    if ∀ u ∈ us, u < 0x110000 then .ok (us.flatMap utf8, us.length) else .error .syntaxError := by
  have hcreate := @createLoop_reads p p.length 0 (us.map Utf8.size).sum us h (by omega) le_rfl []
    (Nat.zero_add _).le
  simp only [escapeStringCreate, calcLength_reads h, ok_bind, hcreate]
  split_ifs <;> rfl

end Njs.Literal
