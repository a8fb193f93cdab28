import Njs.Json.Parse
import Njs.Str.Encodings

/-!
# Strings of JSON texts

The two passes of `njs_json_parse_string` accept the strings of the grammar, and read pairs of
units as `decodeNjs` does: two units that are not a pair are replaced together if both could
begin one.
-/

namespace Njs.Json

variable {ctx : Context} {p q last : List UInt8} {items : List Item} {i : Item} {s s' n : ℕ}

/-- The bytes of a string as the second pass decodes it. -/
def decodeNjs : List Item → List UInt8
  | [] => []
  | .byte c :: items => c :: decodeNjs items
  | .unit u :: .unit l :: items =>
    if isHigh u then
      (if isLow l then utf8 (pairCode u l) else replacement ++ encodeUnit l) ++ decodeNjs items
    else encodeUnit u ++ decodeNjs (.unit l :: items)
  | .unit u :: items => encodeUnit u ++ decodeNjs items

/-! ## Items -/

/-- The parts of a string in its text: a byte, an escape of two bytes, or one of six. -/
theorem item_cases (h : item p = some (i, q)) :
    (∃ c, p = c :: q ∧ c ≠ escapeMark ∧ c ≠ quotationMark ∧ 32 ≤ c ∧ i = .byte c) ∨
    (∃ e c, p = escapeMark :: e :: q ∧ escaped e = some c ∧ i = .byte c) ∨
    ∃ a b c d u, p = escapeMark :: 117 :: a :: b :: c :: d :: q ∧ hexUnit a b c d = some u ∧
      i = .unit u := by
  unfold item at h
  split at h
  · cases h
  · rename_i c p
    split_ifs at h with hescape hother
    · subst hescape
      right
      split at h
      · rename_i a b c d p
        right
        cases hunit : hexUnit a b c d with
        | none =>
          rw [hunit] at h
          cases h
        | some u =>
          rw [hunit] at h
          obtain ⟨rfl, rfl⟩ := Prod.mk.inj (Option.some.inj h)
          exact ⟨a, b, c, d, u, rfl, hunit, rfl⟩
      · rename_i e p _
        left
        cases hescaped : escaped e with
        | none =>
          rw [hescaped] at h
          cases h
        | some c =>
          rw [hescaped] at h
          obtain ⟨rfl, rfl⟩ := Prod.mk.inj (Option.some.inj h)
          exact ⟨e, c, rfl, hescaped, rfl⟩
      · cases h
    · obtain ⟨rfl, rfl⟩ := Prod.mk.inj (Option.some.inj h)
      push Not at hother
      exact Or.inl ⟨c, rfl, hescape, hother.1, UInt8.not_lt.mp (by simpa using hother.2), rfl⟩

theorem hexUnit_some {a b c d : UInt8} {u : ℕ} (h : hexUnit a b c d = some u) :
    ∃ a' b' c' d', hexDigit a = some a' ∧ hexDigit b = some b' ∧ hexDigit c = some c' ∧
      hexDigit d = some d' ∧ u = ((a' * 16 + b') * 16 + c') * 16 + d' := by
  unfold hexUnit at h
  simp only [Option.bind_eq_bind, Option.bind_eq_some_iff, Option.pure_def, Option.some.injEq] at h
  obtain ⟨a', ha, b', hb, c', hc, d', hd, rfl⟩ := h
  exact ⟨a', b', c', d', ha, hb, hc, hd, rfl⟩

theorem hexUnit_isSome {a b c d : UInt8} (ha : (hexDigit a).isSome) (hb : (hexDigit b).isSome)
    (hc : (hexDigit c).isSome) (hd : (hexDigit d).isSome) : ∃ u, hexUnit a b c d = some u := by
  obtain ⟨a', ha⟩ := Option.isSome_iff_exists.mp ha
  obtain ⟨b', hb⟩ := Option.isSome_iff_exists.mp hb
  obtain ⟨c', hc⟩ := Option.isSome_iff_exists.mp hc
  obtain ⟨d', hd⟩ := Option.isSome_iff_exists.mp hd
  refine ⟨((a' * 16 + b') * 16 + c') * 16 + d', ?_⟩
  unfold hexUnit
  rw [ha, hb, hc, hd]
  rfl

theorem escaped_unicode : escaped 117 = none := rfl

theorem item_byte {c : UInt8} (hescape : c ≠ escapeMark) (hquote : c ≠ quotationMark)
    (hspace : 32 ≤ c) : item (c :: q) = some (.byte c, q) := by
  simp only [item, if_neg hescape]
  rw [if_neg]
  rintro (hq | hlt)
  · exact hquote hq
  · exact UInt8.not_lt.mpr hspace hlt

theorem item_escaped {e c : UInt8} (h : escaped e = some c) :
    item (escapeMark :: e :: q) = some (.byte c, q) := by
  have hne : e ≠ 117 := by
    rintro rfl
    cases h
  simp only [item, if_true]
  split
  · rename_i heq
    exact absurd (List.cons.inj heq).1 hne
  · rename_i heq
    obtain ⟨rfl, rfl⟩ := List.cons.inj heq
    rw [h]
    rfl
  · rename_i heq
    cases heq

theorem item_unit {a b c d : UInt8} {u : ℕ} (h : hexUnit a b c d = some u) :
    item (escapeMark :: 117 :: a :: b :: c :: d :: q) = some (.unit u, q) := by
  simp only [item, if_true, h, Option.map_some]

theorem item_length (h : item p = some (i, q)) : q.length < p.length := by
  rcases item_cases h with ⟨c, rfl, -⟩ | ⟨e, c, rfl, -⟩ | ⟨a, b, c, d, u, rfl, -⟩ <;>
    simp only [List.length_cons] <;> omega

/-! ## The first pass -/

/-- The first pass goes over a part of a string. An escape adds to the surplus. -/
theorem scanString_item (h : item p = some (i, q)) :
    ∃ e, (∀ s, scanString ctx .usual s p = scanString ctx .usual (s + e) q) ∧
      (e = 0 → ∃ c, p = c :: q ∧ i = .byte c) := by
  rcases item_cases h with ⟨c, rfl, hescape, hquote, hspace, rfl⟩ | ⟨e, c, rfl, he, rfl⟩ |
    ⟨a, b, c, d, u, rfl, hu, rfl⟩
  · refine ⟨0, fun s => ?_, fun _ => ⟨c, rfl, rfl⟩⟩
    simp only [scanString, if_neg hescape, if_neg hquote, if_pos hspace, add_zero]
  · refine ⟨1, fun s => ?_, nofun⟩
    simp only [scanString, if_true, he, Option.isSome_some]
    rw [if_neg (by decide)]
  · obtain ⟨a', b', c', d', ha, hb, hc, hd, rfl⟩ := hexUnit_some hu
    refine ⟨3, fun s => ?_, nofun⟩
    simp only [scanString, if_true, escaped_unicode, Option.isSome_none, Bool.false_eq_true,
      if_false, ha, hb, hc, hd, Option.isSome_some, StringState.next]
    rw [if_neg (by decide)]

/-- A digit of an escape that the first pass goes over. -/
theorem scanString_digit {state : StringState} (h : scanString ctx state s p = .ok (s', last))
    (hstate : state ≠ .usual ∧ state ≠ .escape) :
    ∃ c q, p = c :: q ∧ (hexDigit c).isSome ∧
      scanString ctx state.next s q = .ok (s', last) := by
  cases p with
  | nil => cases h
  | cons c p =>
    cases state with
    | usual => exact absurd rfl hstate.1
    | escape => exact absurd rfl hstate.2
    | encoded1 | encoded2 | encoded3 | encoded4 =>
      simp only [scanString] at h
      split_ifs at h with hdigit
      exact ⟨c, p, rfl, hdigit, h⟩

/-- An escape that the first pass goes over is a part of a string. -/
theorem scanString_escape (h : scanString ctx .escape s p = .ok (s', last)) :
    ∃ i q, item (escapeMark :: p) = some (i, q) := by
  cases p with
  | nil => cases h
  | cons e p =>
    simp only [scanString] at h
    split_ifs at h with hescaped hunicode
    · obtain ⟨c, hc⟩ := Option.isSome_iff_exists.mp hescaped
      exact ⟨_, _, item_escaped hc⟩
    · subst hunicode
      obtain ⟨a, p, rfl, ha, h⟩ := scanString_digit h (by decide)
      obtain ⟨b, p, rfl, hb, h⟩ := scanString_digit h (by decide)
      obtain ⟨c, p, rfl, hc, h⟩ := scanString_digit h (by decide)
      obtain ⟨d, p, rfl, hd, h⟩ := scanString_digit h (by decide)
      obtain ⟨u, hu⟩ := hexUnit_isSome ha hb hc hd
      exact ⟨_, _, item_unit hu⟩

/-- The first pass stops at a quotation mark or goes over a part of a string. -/
theorem scanString_ok (h : scanString ctx .usual s p = .ok (s', last)) :
    (∃ q, p = quotationMark :: q ∧ s' = s ∧ last = p) ∨ ∃ i q, item p = some (i, q) := by
  cases p with
  | nil => cases h
  | cons c p =>
    simp only [scanString] at h
    split_ifs at h with hquote hescape hspace
    · subst hquote
      obtain ⟨rfl, rfl⟩ := Prod.mk.inj (Except.ok.inj h)
      exact Or.inl ⟨p, rfl, rfl, rfl⟩
    · subst hescape
      exact Or.inr (scanString_escape h)
    · exact Or.inr ⟨_, _, item_byte hescape hquote hspace⟩

/-- What the first pass goes over is a string. If it has no surplus, it has no escapes. -/
theorem scanString_sound (h : scanString ctx .usual s p = .ok (s', last)) :
    ∃ items q, last = quotationMark :: q ∧ StringText p items q ∧ s ≤ s' ∧
      (s' = s → ∃ bytes, p = bytes ++ last ∧ items = bytes.map .byte) := by
  induction hlength : p.length using Nat.strong_induction_on generalizing p s with
  | _ n ih =>
    rcases scanString_ok h with ⟨q, rfl, rfl, rfl⟩ | ⟨i, p', hitem⟩
    · exact ⟨[], q, rfl, .nil q, le_refl _, fun _ => ⟨[], rfl, rfl⟩⟩
    · obtain ⟨e, hscan, hbyte⟩ := scanString_item hitem
      rw [hscan] at h
      obtain ⟨items, q, rfl, htext, hle, hraw⟩ := ih _ (hlength ▸ item_length hitem) h rfl
      refine ⟨i :: items, q, rfl, .cons hitem htext, by omega, fun hs => ?_⟩
      obtain ⟨c, rfl, rfl⟩ := hbyte (by omega)
      obtain ⟨bytes, rfl, rfl⟩ := hraw (by omega)
      exact ⟨c :: bytes, rfl, rfl⟩

/-- The first pass goes over a string. -/
theorem scanString_complete (h : StringText p items q) (s : ℕ) :
    ∃ s', scanString ctx .usual s p = .ok (s', quotationMark :: q) := by
  induction h generalizing s with
  | nil q => exact ⟨s, rfl⟩
  | cons hitem _ ih =>
    obtain ⟨e, hscan, -⟩ := @scanString_item ctx _ _ _ hitem
    obtain ⟨s', hs'⟩ := ih (s + e)
    exact ⟨s', (hscan s).trans hs'⟩

/-- A text begins with one string at most. -/
theorem StringText.unique {items' : List Item} {q' : List UInt8} (h : StringText p items q)
    (h' : StringText p items' q') : items = items' ∧ q = q' := by
  induction h generalizing items' with
  | nil q =>
    cases h' with
    | nil => exact ⟨rfl, rfl⟩
    | cons hitem => cases hitem
  | cons hitem _ ih =>
    cases h' with
    | nil => cases hitem
    | cons hitem' hrest' =>
      rw [hitem] at hitem'
      obtain ⟨rfl, rfl⟩ := Prod.mk.inj (Option.some.inj hitem')
      obtain ⟨rfl, rfl⟩ := ih hrest'
      exact ⟨rfl, rfl⟩

theorem StringText.length_lt (h : StringText p items q) : q.length < p.length := by
  induction h with
  | nil q => exact Nat.lt_succ_self _
  | cons hitem _ ih => exact ih.trans (item_length hitem)

/-! ## The second pass -/

theorem unicodeDigit_eq {c : UInt8} : ∀ h ∈ hexDigit c, unicodeDigit c = h ∧ h < 16 := by
  revert c
  apply Str.forall_byte
  decide +kernel

theorem hexUnit_lt {a b c d : UInt8} {u : ℕ} (h : hexUnit a b c d = some u) : u < 2 ^ 16 := by
  obtain ⟨a', b', c', d', ha, hb, hc, hd, rfl⟩ := hexUnit_some h
  have := (unicodeDigit_eq _ ha).2
  have := (unicodeDigit_eq _ hb).2
  have := (unicodeDigit_eq _ hc).2
  have := (unicodeDigit_eq _ hd).2
  omega

theorem jsonUnicode_eq {a b c d : UInt8} {u : ℕ} (h : hexUnit a b c d = some u) :
    jsonUnicode (a :: b :: c :: d :: q) = .ok (u, q) := by
  obtain ⟨a', b', c', d', ha, hb, hc, hd, rfl⟩ := hexUnit_some h
  have hshift : ∀ m h : ℕ, h < 16 → (m <<< 4 ||| h) = m * 16 + h := fun m h hlt => by
    rw [← Nat.shiftLeft_add_eq_or_of_lt (by omega : h < 2 ^ 4), Nat.shiftLeft_eq]
  simp only [jsonUnicode, (unicodeDigit_eq _ ha).1, (unicodeDigit_eq _ hb).1,
    (unicodeDigit_eq _ hc).1, (unicodeDigit_eq _ hd).1, hshift _ _ (unicodeDigit_eq _ hb).2,
    hshift _ _ (unicodeDigit_eq _ hc).2, hshift _ _ (unicodeDigit_eq _ hd).2]

theorem utf8Encode_eq {u : ℕ} (h : u < 0x110000) : utf8Encode u = .ok (utf8 u) := by
  obtain ⟨bytes, hbytes⟩ := Option.isSome_iff_exists.mp (Utf8.encode_isSome_iff.mpr h)
  simp only [utf8Encode, utf8, hbytes, Option.getD_some]

theorem utf8Encode_replacement : utf8Encode 0xFFFD = .ok replacement := by decide

theorem isHigh_iff {u : ℕ} : isHigh u = true ↔ 0xD800 ≤ u ∧ u ≤ 0xDBFF := by simp [isHigh]

theorem isLow_iff {u : ℕ} : isLow u = true ↔ 0xDC00 ≤ u ∧ u ≤ 0xDFFF := by simp [isLow]

/-- A unit that could not begin a pair is decoded alone. -/
theorem unescapeUnicode_alone {a b c d : UInt8} {u : ℕ} (h : hexUnit a b c d = some u)
    (hhigh : isHigh u = false) :
    unescapeUnicode (a :: b :: c :: d :: q) = .ok (encodeUnit u, q) := by
  have hlt := hexUnit_lt h
  have hnot : ¬(0xD800 ≤ u ∧ u ≤ 0xDBFF) := by
    rw [← isHigh_iff, hhigh]
    exact Bool.false_ne_true
  simp only [unescapeUnicode, jsonUnicode_eq h, ok_bind]
  by_cases hlow : isLow u = true
  · have hrange := isLow_iff.mp hlow
    rw [if_neg (by omega), if_pos (by omega), utf8Encode_replacement]
    simp only [encodeUnit, hlow, Bool.or_true, if_true]
    rfl
  · have hrange : ¬(0xDC00 ≤ u ∧ u ≤ 0xDFFF) := fun hrange => hlow (isLow_iff.mpr hrange)
    rw [if_pos (by omega), utf8Encode_eq (by omega)]
    simp only [encodeUnit, hhigh, hlow, Bool.or_self, Bool.false_eq_true, if_false]
    rfl

/-- A unit that could begin a pair and is not followed by another is replaced. -/
theorem unescapeUnicode_last {a b c d : UInt8} {u : ℕ} (h : hexUnit a b c d = some u)
    (hhigh : isHigh u = true) (hnext : followingUnicode q = .ok none) :
    unescapeUnicode (a :: b :: c :: d :: q) = .ok (replacement, q) := by
  have hrange := isHigh_iff.mp hhigh
  simp only [unescapeUnicode, jsonUnicode_eq h, ok_bind]
  rw [if_neg (by omega), if_neg (by omega), hnext]
  simp only [utf8Encode_replacement]
  rfl

/-- A unit that could begin a pair is decoded with the unit behind it. -/
theorem unescapeLow_eq {a b c d : UInt8} {u l : ℕ} (hhigh : isHigh u = true)
    (hl : hexUnit a b c d = some l) : unescapeLow u (a :: b :: c :: d :: q) =
      .ok (if isLow l then utf8 (pairCode u l) else replacement ++ encodeUnit l, q) := by
  have hrange := isHigh_iff.mp hhigh
  have hlt := hexUnit_lt hl
  simp only [unescapeLow, jsonUnicode_eq hl, ok_bind]
  by_cases hlow : isLow l = true
  · have hlrange := isLow_iff.mp hlow
    have hcode : pairCode u l < 0x110000 := by
      unfold pairCode
      omega
    have hpair : 0x10000 + ((u - 0xD800) <<< 10) + (l - 0xDC00) = pairCode u l := by
      unfold pairCode
      omega
    rw [if_pos hlrange, if_pos hlow, hpair, utf8Encode_eq hcode]
    rfl
  · have hlrange : ¬(0xDC00 ≤ l ∧ l ≤ 0xDFFF) := fun hrange => hlow (isLow_iff.mpr hrange)
    rw [if_neg hlrange, if_neg hlow]
    by_cases hlhigh : isHigh l = true
    · rw [if_pos (isHigh_iff.mp hlhigh), utf8Encode_replacement]
      simp only [encodeUnit, hlhigh, Bool.true_or, if_true]
      rfl
    · rw [if_neg (fun hrange => hlhigh (isHigh_iff.mpr hrange)), utf8Encode_replacement,
        utf8Encode_eq (by omega)]
      simp only [encodeUnit, hlhigh, hlow, Bool.or_self, Bool.false_eq_true, if_false]
      rfl

theorem unescapeUnicode_pair {a b c d a' b' c' d' : UInt8} {u l : ℕ}
    (h : hexUnit a b c d = some u) (hhigh : isHigh u = true) (hl : hexUnit a' b' c' d' = some l) :
    unescapeUnicode (a :: b :: c :: d :: escapeMark :: 117 :: a' :: b' :: c' :: d' :: q) =
      .ok (if isLow l then utf8 (pairCode u l) else replacement ++ encodeUnit l, q) := by
  have hrange := isHigh_iff.mp hhigh
  simp only [unescapeUnicode, jsonUnicode_eq h, ok_bind]
  rw [if_neg (by omega), if_neg (by omega)]
  simp only [followingUnicode, ne_eq, not_true_eq_false, if_false]
  exact unescapeLow_eq hhigh hl

/-- What follows a unit of the first half of a pair is another unit or not. -/
theorem followingUnicode_none (h : StringText p items q)
    (hunit : ∀ u rest, items ≠ .unit u :: rest) : followingUnicode p = .ok none := by
  cases h with
  | nil => rfl
  | cons hitem hrest =>
    rcases item_cases hitem with ⟨c, rfl, hescape, -⟩ | ⟨e, c, rfl, he, -⟩ |
      ⟨a, b, c, d, u, -, -, rfl⟩
    · simp only [followingUnicode, ne_eq, hescape, not_false_eq_true, if_true]
    · have hne : e ≠ 117 := by
        rintro rfl
        cases he
      simp only [followingUnicode, ne_eq, not_true_eq_false, if_false, hne, not_false_eq_true,
        if_true]
    · exact absurd rfl (hunit u _)

theorem unescape_step {bytes rest : List UInt8} (hone : unescapeOne p = .ok (bytes, q))
    (hne : p ≠ last) (hrest : unescape last n q = .ok rest) :
    unescape last (n + 1) p = .ok (bytes ++ rest) := by
  simp only [unescape, if_neg hne, hone, hrest, ok_bind]
  rfl

theorem unescapeOne_byte {c : UInt8} (h : item p = some (.byte c, q)) :
    unescapeOne p = .ok ([c], q) := by
  rcases item_cases h with ⟨c, rfl, hescape, -, -, hi⟩ | ⟨e, c, rfl, he, hi⟩ |
    ⟨a, b, c, d, u, -, -, hi⟩
  · obtain rfl := Item.byte.inj hi
    simp only [unescapeOne, ne_eq, hescape, not_false_eq_true, if_true]
  · obtain rfl := Item.byte.inj hi
    simp only [unescapeOne, ne_eq, not_true_eq_false, if_false, he]
  · cases hi

/-- The text of a unit. -/
theorem item_unit_cases {u : ℕ} (h : item p = some (.unit u, q)) :
    ∃ a b c d, p = escapeMark :: 117 :: a :: b :: c :: d :: q ∧ hexUnit a b c d = some u ∧
      unescapeOne p = unescapeUnicode (a :: b :: c :: d :: q) := by
  rcases item_cases h with ⟨c, -, -, -, -, hi⟩ | ⟨e, c, -, -, hi⟩ | ⟨a, b, c, d, u, rfl, hu, hi⟩
  · cases hi
  · cases hi
  · obtain rfl := Item.unit.inj hi
    refine ⟨a, b, c, d, rfl, hu, ?_⟩
    simp only [unescapeOne, ne_eq, not_true_eq_false, if_false, escaped_unicode]

theorem StringText.ne_last (h : StringText p (i :: items) q) : p ≠ quotationMark :: q := by
  rintro rfl
  cases h with
  | cons hitem => cases hitem

/-- A string whose rest is decoded. -/
theorem unescape_cons {bytes rest : List UInt8} (h : StringText p (i :: items) q)
    (hn : p.length ≤ n) {p' : List UInt8} (hone : unescapeOne p = .ok (bytes, p'))
    (hrest : ∀ m, n = m + 1 → unescape (quotationMark :: q) m p' = .ok rest) :
    unescape (quotationMark :: q) n p = .ok (bytes ++ rest) := by
  cases n with
  | zero =>
    have := h.length_lt
    omega
  | succ n => exact unescape_step hone h.ne_last (hrest n rfl)

/-- The second pass decodes a string. -/
theorem unescape_eq (h : StringText p items q) (hn : p.length ≤ n) :
    unescape (quotationMark :: q) n p = .ok (decodeNjs items) := by
  induction items using decodeNjs.induct generalizing p n with
  | case1 =>
    cases h
    cases n <;> simp only [unescape, if_true, decodeNjs]
  | case2 c items ih =>
    have hall := h
    obtain - | ⟨hitem, hrest⟩ := h
    have hlength := item_length hitem
    exact unescape_cons hall hn (unescapeOne_byte hitem) fun m hm => ih hrest (by omega)
  | case3 u l items hhigh ih =>
    have hall := h
    obtain - | ⟨hitem, hrest⟩ := h
    obtain - | ⟨hnext, hrest⟩ := hrest
    have hlength := item_length hitem
    have hlength' := item_length hnext
    obtain ⟨a, b, c, d, -, hu, hone⟩ := item_unit_cases hitem
    obtain ⟨a', b', c', d', rfl, hl, -⟩ := item_unit_cases hnext
    rw [unescapeUnicode_pair hu hhigh hl] at hone
    simp only [decodeNjs, hhigh, if_true]
    exact unescape_cons hall hn hone fun m hm => ih hrest (by omega)
  | case4 u l items hhigh ih =>
    have hall := h
    obtain - | ⟨hitem, hrest⟩ := h
    have hlength := item_length hitem
    obtain ⟨a, b, c, d, -, hu, hone⟩ := item_unit_cases hitem
    rw [unescapeUnicode_alone hu (Bool.not_eq_true _ ▸ hhigh)] at hone
    simp only [decodeNjs, hhigh]
    exact unescape_cons hall hn hone fun m hm => ih hrest (by omega)
  | case5 u items hnext ih =>
    have hall := h
    obtain - | ⟨hitem, hrest⟩ := h
    have hlength := item_length hitem
    obtain ⟨a, b, c, d, -, hu, hone⟩ := item_unit_cases hitem
    have hdecode : decodeNjs (.unit u :: items) = encodeUnit u ++ decodeNjs items := by
      rw [decodeNjs]
      exact hnext
    rw [hdecode]
    refine unescape_cons hall hn (hone.trans ?_) fun m hm => ih hrest (by omega)
    by_cases hhigh : isHigh u = true
    · rw [unescapeUnicode_last hu hhigh (followingUnicode_none hrest fun l rest => hnext l rest)]
      simp only [encodeUnit, hhigh, Bool.true_or, if_true]
    · exact unescapeUnicode_alone hu (by simpa using hhigh)

/-! ## Strings -/

theorem decodeNjs_bytes (bytes : List UInt8) : decodeNjs (bytes.map .byte) = bytes := by
  induction bytes with
  | nil => rfl
  | cons c bytes ih =>
    rw [List.map_cons, decodeNjs, ih]

/-- The bytes of a string, once the first pass is over. -/
theorem stringBytes_eq (h : StringText p items q)
    (hscan : scanString ctx .usual 0 p = .ok (s', last)) :
    last = quotationMark :: q ∧ (stringBytes ctx p last s' = .ok (decodeNjs items) ∨
      ctx.grants .unescaped p.length = false ∧ stringBytes ctx p last s' =
          .error .memoryError) := by
  obtain ⟨items', q', rfl, htext, -, hraw⟩ := scanString_sound hscan
  obtain ⟨rfl, rfl⟩ := h.unique htext
  refine ⟨rfl, ?_⟩
  unfold stringBytes
  split_ifs with hs hgrant
  · obtain ⟨bytes, rfl, rfl⟩ := hraw hs
    rw [decodeNjs_bytes, List.length_append, Nat.add_sub_cancel, List.take_left']
    · exact Or.inl rfl
    · rfl
  · exact Or.inr ⟨by simpa using hgrant, rfl⟩
  · exact Or.inl (unescape_eq h le_rfl)

theorem scanString_error {state : StringState} {e : ParseError}
    (h : scanString ctx state s p = .error e) : e ≠ .fault := by
  induction p generalizing state s with
  | nil =>
    obtain rfl := Except.error.inj h
    exact nofun
  | cons c p ih =>
    cases state with
    | usual | escape =>
      simp only [scanString] at h
      split_ifs at h
      all_goals first
        | exact ih h
        | (obtain rfl := Except.error.inj h; exact nofun)
    | encoded1 | encoded2 | encoded3 | encoded4 =>
      simp only [scanString] at h
      split_ifs at h
      · exact ih h
      · obtain rfl := Except.error.inj h
        exact nofun

/-- A string of the text is parsed if there is memory; nothing beyond the end is read. -/
theorem parseString_cases (ctx : Context) (c : UInt8) (p : List UInt8) :
    (∃ e, parseString ctx (c :: p) = .error e ∧ e ≠ .fault ∧
      ((∀ request left, ctx.grants request left = true) → ∀ items q, ¬StringText p items q)) ∨
    ∃ items q, StringText p items q ∧ parseString ctx (c :: p) = .ok (decodeNjs items, q) := by
  cases hscan : scanString ctx .usual 0 p with
  | error e =>
    refine Or.inl ⟨e, by simp only [parseString, hscan]; rfl, scanString_error hscan, ?_⟩
    intro _ items q htext
    obtain ⟨s', hs'⟩ := @scanString_complete ctx _ _ _ htext 0
    rw [hscan] at hs'
    cases hs'
  | ok scanned =>
    obtain ⟨s', last⟩ := scanned
    obtain ⟨items, q, -, htext, -⟩ := scanString_sound hscan
    obtain ⟨rfl, hbytes | ⟨hgrant, hbytes⟩⟩ := stringBytes_eq htext hscan
    · cases hgrant : ctx.grants .string p.length with
      | true =>
        refine Or.inr ⟨items, q, htext, ?_⟩
        simp only [parseString, hscan, ok_bind, hbytes, hgrant]
        rfl
      | false =>
        refine Or.inl ⟨.memoryError, ?_, by rintro ⟨⟩, fun hmemory => ?_⟩
        · simp only [parseString, hscan, ok_bind, hbytes, hgrant]
          rfl
        · rw [hmemory] at hgrant
          cases hgrant
    · refine Or.inl ⟨.memoryError, ?_, by rintro ⟨⟩, fun hmemory => ?_⟩
      · simp only [parseString, hscan, ok_bind, hbytes]
        rfl
      · rw [hmemory] at hgrant
        cases hgrant

end Njs.Json
