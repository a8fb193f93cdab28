import Njs.Json.Strings
import Mathlib.Algebra.Group.Nat.Even

/-!
# The escapes of JSON strings

The second pass over a string writes no more than the first pass left room for. It joins the
units of the string to pairs as UTF-16 does, unless a run of units that could begin a pair has
an even length: then the last of them is replaced together with the one before it.
-/

namespace Njs.Json

variable {ctx : Context} {p q last : List UInt8} {items : List Item} {i : Item} {s s' : ℕ}

/-- A part of a string that could begin a pair. -/
def Item.isHigh : Item → Bool
  | .unit u => Json.isHigh u
  | .byte _ => false

/-- A part of a string that could end a pair. -/
def Item.isLow : Item → Bool
  | .unit u => Json.isLow u
  | .byte _ => false

/-- An even number of units that could begin a pair, no other one before them, is followed by one
that could end a pair. -/
def EvenRun (items : List Item) : Prop :=
  ∃ before run low behind, items = before ++ run ++ low :: behind ∧ run ≠ [] ∧ Even run.length ∧
    (∀ i ∈ run, i.isHigh = true) ∧ (∀ i ∈ before.getLast?, i.isHigh = false) ∧ low.isLow = true

/-- The second pass decodes a string: it stops at the last quotation mark, has written no more
bytes than the string has without what the first pass counted as in excess, and these are the
characters of its units read as UTF-16. -/
def Decodes (p last : List UInt8) (surplus : ℕ) (items : List Item) : Prop :=
  ∃ bytes, unescape last p.length p = .ok bytes ∧
    bytes.length + surplus + last.length ≤ p.length ∧ bytes = decodeUtf16 items

/-! ## The room for the characters -/

/-- The bytes that are left of the parts of a string without those in excess. -/
def room : List Item → ℕ
  | [] => 0
  | .byte _ :: items => 1 + room items
  | .unit _ :: items => 3 + room items

/-- Every escape of a unit has four digits. -/
def Units (items : List Item) : Prop := ∀ u, .unit u ∈ items → u < 2 ^ 16

theorem Units.tail (h : Units (i :: items)) : Units items := fun u hu =>
  h u (List.mem_cons_of_mem i hu)

theorem StringText.units (h : StringText p items q) : Units items := by
  induction h with
  | nil q => exact fun u hu => absurd hu List.not_mem_nil
  | cons hitem _ ih =>
    intro u hu
    rcases List.mem_cons.mp hu with rfl | hu
    · obtain ⟨a, b, c, d, -, hunit, -⟩ := item_unit_cases hitem
      exact hexUnit_lt hunit
    · exact ih u hu

theorem utf8_length {u : ℕ} (h : u < 0x110000) : (utf8 u).length = Utf8.size u := by
  obtain ⟨bytes, hbytes⟩ := Option.isSome_iff_exists.mp (Utf8.encode_isSome_iff.mpr h)
  rw [utf8, hbytes, Option.getD_some, Utf8.encode_length hbytes]

theorem encodeUnit_length {u : ℕ} (h : u < 2 ^ 16) : (encodeUnit u).length ≤ 3 := by
  unfold encodeUnit
  split_ifs
  · exact le_rfl
  · rw [utf8_length (by omega), Utf8.size]
    split_ifs <;> omega

theorem pairCode_bounds {u l : ℕ} (hu : isHigh u = true) (hl : isLow l = true) :
    0x10000 ≤ pairCode u l ∧ pairCode u l < 0x110000 := by
  have hhigh := isHigh_iff.mp hu
  have hlow := isLow_iff.mp hl
  unfold pairCode
  omega

theorem pair_length {u l : ℕ} (hu : isHigh u = true) (hl : isLow l = true) :
    (utf8 (pairCode u l)).length = 4 := by
  obtain ⟨hlower, hupper⟩ := pairCode_bounds hu hl
  rw [utf8_length hupper, Utf8.size]
  split_ifs <;> omega

/-- The second pass writes no more than there is room for. -/
theorem decodeNjs_length (h : Units items) : (decodeNjs items).length ≤ room items := by
  induction items using decodeNjs.induct with
  | case1 => exact le_rfl
  | case2 c items ih =>
    have hrest := ih h.tail
    simp only [decodeNjs, room, List.length_cons]
    omega
  | case3 u l items hhigh ih =>
    have hrest := ih h.tail.tail
    have hl := encodeUnit_length (h.tail l List.mem_cons_self)
    simp only [decodeNjs, hhigh, if_true, room, List.length_append]
    by_cases hlow : isLow l = true
    · rw [if_pos hlow, pair_length hhigh hlow]
      omega
    · rw [if_neg hlow, List.length_append]
      have hthree : replacement.length = 3 := rfl
      omega
  | case4 u l items hhigh ih =>
    have hrest := ih h.tail
    have hu := encodeUnit_length (h u List.mem_cons_self)
    simp only [decodeNjs, hhigh, room, List.length_append, Bool.false_eq_true, if_false] at hrest ⊢
    omega
  | case5 u items hnext ih =>
    have hrest := ih h.tail
    have hu := encodeUnit_length (h u List.mem_cons_self)
    rw [decodeNjs, List.length_append, room]
    · omega
    · exact hnext

/-- The first pass counts the bytes of the parts that are in excess. -/
theorem scanString_room (h : StringText p items q)
    (hscan : scanString ctx .usual s p = .ok (s', last)) :
    s' + room items + last.length = s + p.length := by
  induction h generalizing s with
  | nil q =>
    obtain ⟨rfl, rfl⟩ := Prod.mk.inj (Except.ok.inj hscan)
    rw [room]
    omega
  | @cons p p' q i items hitem _ ih =>
    rcases item_cases hitem with ⟨c, rfl, hescape, hquote, hspace, rfl⟩ | ⟨e, c, rfl, he, rfl⟩ |
      ⟨a, b, c, d, u, rfl, hu, rfl⟩
    · simp only [scanString, if_neg hescape, if_neg hquote, if_pos hspace] at hscan
      have hrest := ih hscan
      rw [room, List.length_cons]
      omega
    · simp only [scanString, if_true, he, Option.isSome_some] at hscan
      rw [if_neg (by decide)] at hscan
      have hrest := ih hscan
      simp only [room, List.length_cons]
      omega
    · obtain ⟨a', b', c', d', ha, hb, hc, hd, rfl⟩ := hexUnit_some hu
      simp only [scanString, if_true, escaped_unicode, Option.isSome_none, Bool.false_eq_true,
        if_false, ha, hb, hc, hd, Option.isSome_some, StringState.next] at hscan
      rw [if_neg (by decide)] at hscan
      have hrest := ih hscan
      simp only [room, List.length_cons]
      omega

/-! ## Pairs -/

/-- How many pairs the second pass does not join. -/
def lostPairs : List Item → ℕ
  | [] => 0
  | .byte _ :: items => lostPairs items
  | .unit u :: .unit l :: items =>
    if isHigh u then
      (if isHigh l ∧ (items.head?.any Item.isLow) then 1 else 0) + lostPairs items
    else lostPairs (.unit l :: items)
  | .unit _ :: items => lostPairs items

theorem not_low_of_high {u : ℕ} (h : isHigh u = true) : isLow u = false := by
  have hrange := isHigh_iff.mp h
  rw [Bool.eq_false_iff]
  intro hlow
  have hlowRange := isLow_iff.mp hlow
  omega

theorem decodeUtf16_pair {u l : ℕ} (hu : isHigh u = true) (hl : isLow l = true) :
    decodeUtf16 (.unit u :: .unit l :: items) = utf8 (pairCode u l) ++ decodeUtf16 items := by
  rw [decodeUtf16, hu, hl]
  rfl

theorem decodeUtf16_alone {u : ℕ} (h : ∀ l ∈ items.head?, isHigh u = true → l.isLow = false) :
    decodeUtf16 (.unit u :: items) = encodeUnit u ++ decodeUtf16 items := by
  cases items with
  | nil => rfl
  | cons i items =>
    cases i with
    | byte c => rfl
    | unit l =>
      rw [decodeUtf16, if_neg]
      intro hpair
      obtain ⟨hu, hl⟩ := Bool.and_eq_true_iff.mp hpair
      have hnot := h _ rfl hu
      rw [show Item.isLow (.unit l) = isLow l from rfl, hl] at hnot
      cases hnot

theorem decodeNjs_alone {u : ℕ} (h : isHigh u = false) :
    decodeNjs (.unit u :: items) = encodeUnit u ++ decodeNjs items := by
  cases items with
  | nil => rfl
  | cons i items =>
    cases i with
    | byte c => rfl
    | unit l =>
      rw [decodeNjs, h]
      rfl

theorem encodeUnit_of_high {u : ℕ} (h : isHigh u = true) : encodeUnit u = replacement := by
  rw [encodeUnit, h]
  rfl

theorem encodeUnit_of_low {u : ℕ} (h : isLow u = true) : encodeUnit u = replacement := by
  rw [encodeUnit, h, Bool.or_true]
  rfl

theorem high_of_low {u : ℕ} (h : isLow u = true) : isHigh u = false := by
  rw [Bool.eq_false_iff]
  intro hhigh
  rw [not_low_of_high hhigh] at h
  cases h

/-- Each pair that is not joined makes the string longer by two bytes. -/
theorem decodeNjs_lost : (decodeNjs items).length =
      (decodeUtf16 items).length + 2 * lostPairs items ∧
    (lostPairs items = 0 → decodeNjs items = decodeUtf16 items) := by
  induction items using decodeNjs.induct with
  | case1 => exact ⟨rfl, fun _ => rfl⟩
  | case2 c items ih =>
    simp only [decodeNjs, decodeUtf16, lostPairs, List.length_cons]
    exact ⟨by omega, fun h => by rw [ih.2 h]⟩
  | case3 u l items hhigh ih =>
    have hurepl := encodeUnit_of_high hhigh
    simp only [decodeNjs, hhigh, if_true, lostPairs]
    by_cases hlow : isLow l = true
    · have hnot : ¬(isHigh l = true ∧ items.head?.any Item.isLow = true) := by
        rw [high_of_low hlow]
        exact fun h => absurd h.1 Bool.false_ne_true
      rw [if_pos hlow, if_neg hnot, decodeUtf16_pair hhigh hlow, List.length_append,
        List.length_append]
      exact ⟨by omega, fun h => by rw [ih.2 (by omega)]⟩
    · have hfirst : decodeUtf16 (.unit u :: .unit l :: items) =
          replacement ++ decodeUtf16 (.unit l :: items) := by
        rw [decodeUtf16_alone, hurepl]
        rintro - ⟨⟩ -
        exact Bool.not_eq_true _ ▸ hlow
      rw [if_neg hlow, hfirst]
      by_cases hlost : isHigh l = true ∧ items.head?.any Item.isLow = true
      · obtain ⟨hl, hnext⟩ := hlost
        obtain ⟨m, rest, rfl, hm⟩ : ∃ m rest, items = .unit m :: rest ∧ isLow m = true := by
          cases items with
          | nil => cases hnext
          | cons i rest =>
            cases i with
            | byte c => cases hnext
            | unit m => exact ⟨m, rest, rfl, hnext⟩
        have hpair := pair_length hl hm
        have hthree : replacement.length = 3 := rfl
        have hnjs := @decodeNjs_alone rest m (high_of_low hm)
        have hutf := @decodeUtf16_alone rest m (by
          intro _ _ hm'
          rw [high_of_low hm] at hm'
          cases hm')
        rw [encodeUnit_of_low hm] at hnjs hutf
        obtain ⟨hlength, -⟩ := ih
        rw [hnjs, hutf] at hlength
        rw [if_pos ⟨hl, hnext⟩, decodeUtf16_pair hl hm, encodeUnit_of_high hl, hnjs]
        simp only [List.length_append] at hlength ⊢
        exact ⟨by omega, fun h => absurd h (by omega)⟩
      · have hsecond : decodeUtf16 (.unit l :: items) = encodeUnit l ++ decodeUtf16 items := by
          refine decodeUtf16_alone fun i hi hl => ?_
          rw [Bool.eq_false_iff]
          intro hi'
          refine hlost ⟨hl, ?_⟩
          rw [Option.mem_def.mp hi]
          exact hi'
        rw [if_neg hlost, hsecond]
        simp only [List.length_append, List.append_assoc]
        exact ⟨by omega, fun h => by rw [ih.2 (by omega)]⟩
  | case4 u l items hhigh ih =>
    have hnot : isHigh u = false := Bool.not_eq_true _ ▸ hhigh
    have hlost : lostPairs (.unit u :: .unit l :: items) = lostPairs (.unit l :: items) := by
      rw [lostPairs, hnot]
      rfl
    have hutf : decodeUtf16 (.unit u :: .unit l :: items) =
        encodeUnit u ++ decodeUtf16 (.unit l :: items) := by
      refine decodeUtf16_alone fun _ _ hu => ?_
      rw [hnot] at hu
      cases hu
    rw [decodeNjs_alone hnot, hutf, hlost]
    simp only [List.length_append]
    exact ⟨by omega, fun h => by rw [ih.2 h]⟩
  | case5 u items hnext ih =>
    have hutf : decodeUtf16 (.unit u :: items) = encodeUnit u ++ decodeUtf16 items := by
      refine decodeUtf16_alone fun i hi _ => ?_
      cases items with
      | nil => cases hi
      | cons j items =>
        obtain rfl := Option.some.inj hi
        cases j with
        | byte c => rfl
        | unit l => exact absurd rfl (hnext l items)
    have hnjs : decodeNjs (.unit u :: items) = encodeUnit u ++ decodeNjs items := by
      rw [decodeNjs]
      exact hnext
    have hlost : lostPairs (.unit u :: items) = lostPairs items := by
      rw [lostPairs]
      exact hnext
    rw [hutf, hnjs, hlost]
    simp only [List.length_append]
    exact ⟨by omega, fun h => by rw [ih.2 h]⟩

theorem decodeNjs_eq_iff : decodeNjs items = decodeUtf16 items ↔ lostPairs items = 0 := by
  obtain ⟨hlength, hsame⟩ := @decodeNjs_lost items
  refine ⟨fun h => ?_, hsame⟩
  rw [h] at hlength
  omega

/-! ## Even runs -/

theorem not_evenRun_nil : ¬EvenRun [] := by
  rintro ⟨before, run, low, behind, heq, -⟩
  simp at heq

/-- A part that could not begin a pair is in no run. -/
theorem evenRun_cons (h : i.isHigh = false) : EvenRun (i :: items) ↔ EvenRun items := by
  constructor
  · rintro ⟨before, run, low, behind, heq, hne, heven, hrun, hbefore, hlow⟩
    cases before with
    | nil =>
      obtain ⟨j, run, rfl⟩ := List.exists_cons_of_ne_nil hne
      obtain ⟨rfl, -⟩ := List.cons.inj heq
      rw [hrun i List.mem_cons_self] at h
      cases h
    | cons j before =>
      obtain ⟨rfl, rfl⟩ := List.cons.inj heq
      refine ⟨before, run, low, behind, rfl, hne, heven, hrun, fun k hk => hbefore k ?_, hlow⟩
      cases before with
      | nil => cases hk
      | cons j before => simpa using hk
  · rintro ⟨before, run, low, behind, rfl, hne, heven, hrun, hbefore, hlow⟩
    refine ⟨i :: before, run, low, behind, rfl, hne, heven, hrun, fun k hk => ?_, hlow⟩
    cases before with
    | nil =>
      obtain rfl : i = k := Option.some.inj hk
      exact h
    | cons j before => exact hbefore k (by simpa using hk)

/-- Two units that could begin a pair. -/
theorem evenRun_two {j : Item} (hi : i.isHigh = true) (hj : j.isHigh = true) :
    EvenRun (i :: j :: items) ↔ items.head?.any Item.isLow = true ∨ EvenRun items := by
  constructor
  · rintro ⟨before, run, low, behind, heq, hne, heven, hrun, hbefore, hlow⟩
    rcases before with - | ⟨k, - | ⟨k', before⟩⟩
    · rcases run with - | ⟨k, - | ⟨k', run⟩⟩
      · exact absurd rfl hne
      · exact absurd heven Nat.not_even_one
      · simp only [List.nil_append, List.cons_append, List.cons.injEq] at heq
        obtain ⟨rfl, rfl, rfl⟩ := heq
        cases run with
        | nil => exact Or.inl hlow
        | cons k run =>
          refine Or.inr ⟨[], k :: run, low, behind, rfl, List.cons_ne_nil _ _, ?_, ?_,
            by rintro - ⟨⟩, hlow⟩
          · simpa [Nat.even_add_one] using heven
          · exact fun k' hk' => hrun k' (List.mem_cons_of_mem _ (List.mem_cons_of_mem _ hk'))
    · obtain ⟨rfl, -⟩ := List.cons.inj heq
      have hnot := hbefore i rfl
      rw [hi] at hnot
      cases hnot
    · simp only [List.cons_append, List.cons.injEq] at heq
      obtain ⟨rfl, rfl, rfl⟩ := heq
      cases before with
      | nil =>
        have hnot := hbefore j rfl
        rw [hj] at hnot
        cases hnot
      | cons k before =>
        exact Or.inr ⟨k :: before, run, low, behind, rfl, hne, heven, hrun,
          fun k' hk' => hbefore k' (by simpa using hk'), hlow⟩
  · rintro (hnext | ⟨before, run, low, behind, rfl, hne, heven, hrun, hbefore, hlow⟩)
    · cases items with
      | nil => cases hnext
      | cons low behind =>
        exact ⟨[], [i, j], low, behind, rfl, by simp, even_two, by simp [hi, hj],
          by rintro - ⟨⟩, hnext⟩
    · cases before with
      | nil =>
        refine ⟨[], i :: j :: run, low, behind, rfl, by simp, ?_, ?_, by rintro - ⟨⟩, hlow⟩
        · simpa [Nat.even_add_one] using heven
        · intro k hk
          rcases List.mem_cons.mp hk with rfl | hk
          · exact hi
          · rcases List.mem_cons.mp hk with rfl | hk
            · exact hj
            · exact hrun k hk
      | cons k before =>
        exact ⟨i :: j :: k :: before, run, low, behind, rfl, hne, heven, hrun,
          fun k' hk' => hbefore k' (by simpa using hk'), hlow⟩

/-- A unit that could begin a pair alone. -/
theorem evenRun_one (hi : i.isHigh = true) (hnext : ∀ j ∈ items.head?, j.isHigh = false) :
    EvenRun (i :: items) ↔ EvenRun items := by
  constructor
  · rintro ⟨before, run, low, behind, heq, hne, heven, hrun, hbefore, hlow⟩
    rcases before with - | ⟨k, before⟩
    · rcases run with - | ⟨k, - | ⟨k', run⟩⟩
      · exact absurd rfl hne
      · exact absurd heven Nat.not_even_one
      · simp only [List.nil_append, List.cons_append, List.cons.injEq] at heq
        obtain ⟨rfl, rfl⟩ := heq
        have hnot := hnext k' rfl
        rw [hrun k' (List.mem_cons_of_mem _ List.mem_cons_self)] at hnot
        cases hnot
    · obtain ⟨rfl, rfl⟩ := List.cons.inj heq
      cases before with
      | nil =>
        have hnot := hbefore i rfl
        rw [hi] at hnot
        cases hnot
      | cons k before =>
        exact ⟨k :: before, run, low, behind, rfl, hne, heven, hrun,
          fun k' hk' => hbefore k' (by simpa using hk'), hlow⟩
  · rintro ⟨before, run, low, behind, rfl, hne, heven, hrun, hbefore, hlow⟩
    cases before with
    | nil =>
      obtain ⟨k, run, rfl⟩ := List.exists_cons_of_ne_nil hne
      have hnot := hnext k rfl
      rw [hrun k List.mem_cons_self] at hnot
      cases hnot
    | cons k before =>
      exact ⟨i :: k :: before, run, low, behind, rfl, hne, heven, hrun,
        fun k' hk' => hbefore k' (by simpa using hk'), hlow⟩

theorem lostPairs_eq_zero_iff : lostPairs items = 0 ↔ ¬EvenRun items := by
  induction items using decodeNjs.induct with
  | case1 => exact iff_of_true rfl not_evenRun_nil
  | case2 c items ih =>
    rw [evenRun_cons rfl]
    exact ih
  | case3 u l items hhigh ih =>
    have hu : Item.isHigh (.unit u) = true := hhigh
    rw [lostPairs, if_pos hhigh]
    by_cases hl : isHigh l = true
    · have hl' : Item.isHigh (.unit l) = true := hl
      rw [evenRun_two hu hl', not_or, ← ih]
      by_cases hnext : items.head?.any Item.isLow = true
      · rw [if_pos ⟨hl, hnext⟩]
        exact iff_of_false (by omega) fun h => h.1 hnext
      · rw [if_neg fun h => hnext h.2, Nat.zero_add]
        exact (and_iff_right hnext).symm
    · have hnot : Item.isHigh (.unit l) = false := Bool.not_eq_true _ ▸ hl
      rw [if_neg fun h => hl h.1, Nat.zero_add, evenRun_one hu, evenRun_cons hnot]
      · exact ih
      · rintro - ⟨⟩
        exact hnot
  | case4 u l items hhigh ih =>
    have hnot : Item.isHigh (.unit u) = false := Bool.not_eq_true _ ▸ hhigh
    rw [lostPairs, if_neg hhigh, evenRun_cons hnot]
    exact ih
  | case5 u items hnext ih =>
    have hlost : lostPairs (.unit u :: items) = lostPairs items := by
      rw [lostPairs]
      exact hnext
    rw [hlost, ih]
    by_cases hhigh : isHigh u = true
    · have hu : Item.isHigh (.unit u) = true := hhigh
      rw [evenRun_one hu]
      intro j hj
      cases items with
      | nil => cases hj
      | cons k items =>
        obtain rfl := Option.some.inj hj
        cases k with
        | byte c => rfl
        | unit l => exact absurd rfl (hnext l items)
    · rw [evenRun_cons (Bool.not_eq_true _ ▸ hhigh : Item.isHigh (.unit u) = false)]

/-- The second pass over a string that the first pass accepts decodes it exactly if no even run
of units that could begin a pair is in front of one that could end it. -/
theorem unescapes_iff (htext : StringText p items q)
    (hscan : scanString ctx .usual 0 p = .ok (s, last)) :
    Decodes p last s items ↔ ¬EvenRun items := by
  obtain ⟨items', q', rfl, htext', -⟩ := scanString_sound hscan
  obtain ⟨rfl, rfl⟩ := htext.unique htext'
  have hroom := scanString_room htext hscan
  have hlength := decodeNjs_length htext.units
  rw [← lostPairs_eq_zero_iff, ← decodeNjs_eq_iff, Decodes, unescape_eq htext le_rfl]
  constructor
  · rintro ⟨bytes, hbytes, -, hdecode⟩
    rw [Except.ok.inj hbytes, hdecode]
  · intro hdecode
    exact ⟨_, rfl, by omega, hdecode⟩

/-- A context whose requests for memory are granted. -/
def granting (text : List UInt8) : Context where
  strtod := .unrounded
  text := text
  grants _ _ := true

/-- The empty string is decoded. -/
theorem decodes_empty : Decodes [quotationMark] [quotationMark] 0 [] ↔ ¬EvenRun [] :=
  @unescapes_iff (granting []) _ _ _ _ _ (.nil []) rfl

/-- `\uD800\uD800\uDC00` and the quotation mark behind it. -/
def threeUnits : List UInt8 :=
  [92, 117, 68, 56, 48, 48, 92, 117, 68, 56, 48, 48, 92, 117, 68, 67, 48, 48, 34]

/-- The second and the third unit of `\uD800\uD800\uDC00` are a pair, and all three are
replaced. -/
theorem threeUnits_not_decoded :
    ¬∀ (ctx : Context) (p last q : List UInt8) (s : ℕ) (items : List Item), StringText p items q →
      scanString ctx .usual 0 p = .ok (s, last) → Decodes p last s items := by
  intro h
  have htext : StringText threeUnits [.unit 0xD800, .unit 0xD800, .unit 0xDC00] [] :=
    .cons (item_unit (by decide)) (.cons (item_unit (by decide)) (.cons (item_unit (by decide))
      (.nil [])))
  have hscan : scanString (granting threeUnits) .usual 0 threeUnits = .ok (9, [34]) := by decide
  obtain ⟨bytes, hbytes, -, hdecode⟩ := h _ _ _ _ _ _ htext hscan
  rw [unescape_eq htext le_rfl] at hbytes
  have hlost := decodeNjs_eq_iff.mp ((Except.ok.inj hbytes).trans hdecode)
  exact absurd hlost (by decide)

end Njs.Json
