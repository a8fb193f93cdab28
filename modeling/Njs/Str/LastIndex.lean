import Njs.Str.FirstIndex

/-!
# The last occurrence

`lastIndexOf` compares lengths in characters, but steps back over bytes from the last place at
which the bytes of the search string fit. If they do not fit anywhere, it steps out of the
string.
-/

namespace Njs.Str

open Utf8 Lib

/-- The characters up to a position at which a string occurs, with as many characters left as
it has. -/
def placesUpTo (s t : Subject) (bound : ℕ∞) : Set ℕ :=
  {i | i ≤ bound ∧ i + t.chars.length ≤ s.chars.length ∧ Occurs s t i}

/-- The position up to which `lastIndexOf` searches. -/
def searchBound : Number → ℕ∞
  | .nan => ⊤
  | n => startPosition n

/-- `lastIndexOf` returns the last of these characters, whatever the state of the offset map. -/
def LastIndexHolds (s t : Subject) (position : Number) : Prop :=
  ∀ cells, InMemory s cells → ∃ r,
    prototypeLastIndexOf s.prop cells t.prop position = .ok r ∧
      IsLast (placesUpTo s t (searchBound position)) r

/-- The position as the source has it. -/
def convertedBound (position : Number) : ℕ := (lastPositionIndex position).toNat

/-- The search string has more characters than the string; or it does not have more bytes, and
neither the conversion of the position nor the bytes of a byte string let an occurrence be found
that should not be, or be missed. -/
def LastIndexSafe (s t : Subject) (position : Number) : Prop :=
  s.chars.length < t.chars.length ∨
    (t.prop.size ≤ s.prop.size ∧ ∀ i, Occurs s t i →
      (i ≤ convertedBound position ↔
        i ≤ searchBound position ∧ i + t.chars.length ≤ s.chars.length))

/-! ### The loops -/

theorem isLast_of_eq {places places' : Set ℕ} {r : ℤ} (h : IsLast places r)
    (heq : ∀ i, i ∈ places' ↔ i ∈ places) : IsLast places' r := by
  rwa [Set.ext heq]

theorem isLast_self {p : ℕ → Prop} {i : ℕ} (hi : p i) : IsLast {j | j ≤ i ∧ p j} i :=
  .inr ⟨i, rfl, ⟨Nat.le_refl i, hi⟩, fun _ hj => hj.1⟩

theorem isLast_zero {p : ℕ → Prop} (hp : ¬ p 0) : IsLast {j | j ≤ 0 ∧ p j} (-1) := by
  refine .inl ⟨rfl, Set.eq_empty_of_forall_notMem fun j hj => hp ?_⟩
  obtain rfl := Nat.le_zero.mp hj.1
  exact hj.2

theorem isLast_succ {p : ℕ → Prop} {i : ℕ} {r : ℤ} (hp : ¬ p (i + 1))
    (h : IsLast {j | j ≤ i ∧ p j} r) : IsLast {j | j ≤ i + 1 ∧ p j} r := by
  refine isLast_of_eq h fun j => ⟨fun ⟨hj, hpj⟩ => ⟨?_, hpj⟩, fun ⟨hj, hpj⟩ => ⟨by omega, hpj⟩⟩
  rcases Nat.lt_or_eq_of_le hj with hlt | rfl
  · exact Nat.le_of_lt_succ hlt
  · exact absurd hpj hp

/-- The loop over the bytes before a place where the search string fits. -/
theorem lastByteLoop_spec {bytes search : List UInt8} {fuel i : ℕ}
    (hfit : i + search.length ≤ bytes.length) (hfuel : i < fuel) :
    ∃ r, lastByteLoop bytes search fuel i i = .ok r ∧
      IsLast {j | j ≤ i ∧ search <+: bytes.drop j} r := by
  induction i generalizing fuel with
  | zero =>
    obtain ⟨fuel, rfl⟩ := Nat.exists_eq_succ_of_ne_zero (Nat.ne_of_gt hfuel)
    rw [lastByteLoop, memcmpEq_eq hfit]
    by_cases hfound : search <+: bytes.drop 0
    · exact ⟨0, by simp only [hfound, decide_true]; rfl, isLast_self hfound⟩
    · exact ⟨-1, by simp only [hfound, decide_false]; rfl, isLast_zero hfound⟩
  | succ i ih =>
    obtain ⟨fuel, rfl⟩ := Nat.exists_eq_succ_of_ne_zero (Nat.ne_of_gt (Nat.zero_lt_of_lt hfuel))
    rw [lastByteLoop, memcmpEq_eq hfit]
    by_cases hfound : search <+: bytes.drop (i + 1)
    · exact ⟨(i + 1 : ℕ), by simp only [hfound, decide_true]; rfl, isLast_self hfound⟩
    · obtain ⟨r, hok, hlast⟩ := ih (by omega) (show i < fuel by omega)
      refine ⟨r, ?_, isLast_succ hfound hlast⟩
      have hpos : ((i + 1 : ℕ) : ℤ) - 1 ≥ 0 := by omega
      simp only [hfound, decide_false, bind, Except.bind, Bool.false_eq_true, if_false,
        if_pos hpos]
      rw [show ((i + 1 : ℕ) : ℤ) - 1 = i by omega, hok]

/-- `njs_utf8_prev` reads before the start, or goes back. -/
theorem utf8Prev_cases (bytes : List UInt8) (p : ℕ) :
    utf8Prev bytes p = .error .fault ∨ ∃ p' < p, utf8Prev bytes p = .ok p' := by
  induction p with
  | zero => exact .inl rfl
  | succ p ih =>
    rw [utf8Prev]
    cases bytes[p]? with
    | none => exact .inl rfl
    | some c =>
      simp only
      split_ifs
      · exact ih.imp_right fun ⟨p', hp', hok⟩ => ⟨p', Nat.lt_succ_of_lt hp', hok⟩
      · exact .inr ⟨p, Nat.lt_succ_self p, rfl⟩

section Text

variable {us : List CodePoint} {search : List UInt8}

/-- `njs_utf8_prev` goes back over one character of a text. -/
theorem utf8Prev_text {i : ℕ} (hi : i < us.length) :
    utf8Prev (code.encodeAll us) ((Subject.text us).offset (i + 1)) =
      .ok ((Subject.text us).offset i) := by
  set off := (Subject.text us).offset i with hoff
  obtain ⟨b, cs, hu, hb, hcs, -⟩ := encode_eq_cons us[i]
  have hdrop : (code.encodeAll us).drop off = b :: (cs ++ code.encodeAll (us.drop (i + 1))) := by
    rw [hoff, ← List.cons_append, ← hu, ← code.encodeAll_cons, ← List.drop_eq_getElem_cons hi]
    exact drop_offset_text us i
  have hbytes (k : ℕ) : (code.encodeAll us)[off + k]? =
      (b :: (cs ++ code.encodeAll (us.drop (i + 1))))[k]? := by
    rw [← hdrop, List.getElem?_drop]
  have hback : ∀ k ≤ cs.length, utf8Prev (code.encodeAll us) (off + k + 1) = .ok off := by
    intro k hk
    induction k with
    | zero =>
      have hlead : ¬ b &&& 0xC0 = 0x80 := fun h => hb ((and_c0_iff b).mp h)
      have hfirst := hbytes 0
      rw [Nat.add_zero] at hfirst
      rw [Nat.add_zero, utf8Prev, hfirst]
      simp [hlead]
    | succ k ih =>
      have hk' : k < cs.length := hk
      have hcont := (and_c0_iff _).mpr (hcs cs[k] (List.getElem_mem hk'))
      rw [← Nat.add_assoc, utf8Prev, Nat.add_assoc off, hbytes (k + 1), List.getElem?_cons_succ,
        List.getElem?_append_left hk', List.getElem?_eq_getElem hk']
      simp only [if_pos hcont]
      exact ih (Nat.le_of_lt hk')
  have hnext : (Subject.text us).offset (i + 1) = off + cs.length + 1 := by
    rw [text_offset_succ hi, hu, List.length_cons]
    rfl
  rw [hnext]
  exact hback cs.length (Nat.le_refl _)

/-- The loop over the characters before a place where the search string fits. -/
theorem lastCharLoop_spec {fuel i : ℕ} (hi : i ≤ us.length)
    (hfit : (Subject.text us).offset i + search.length ≤ (code.encodeAll us).length)
    (hfuel : i < fuel) :
    ∃ r, lastCharLoop (code.encodeAll us) search fuel ((Subject.text us).offset i) i = .ok r ∧
      IsLast {j | j ≤ i ∧ search <+: (code.encodeAll us).drop ((Subject.text us).offset j)} r := by
  induction i generalizing fuel with
  | zero =>
    obtain ⟨fuel, rfl⟩ := Nat.exists_eq_succ_of_ne_zero (Nat.ne_of_gt hfuel)
    have hzero : (Subject.text us).offset 0 = 0 := Segments.offset_zero _
    rw [lastCharLoop, memcmpEq_eq hfit]
    by_cases hfound : search <+: (code.encodeAll us).drop ((Subject.text us).offset 0)
    · exact ⟨0, by simp only [hfound, decide_true]; rfl, isLast_self hfound⟩
    · refine ⟨-1, ?_, isLast_zero hfound⟩
      simp only [hfound, decide_false, bind, Except.bind]
      rw [if_neg Bool.false_ne_true, if_pos hzero]
      rfl
  | succ i ih =>
    obtain ⟨fuel, rfl⟩ := Nat.exists_eq_succ_of_ne_zero (Nat.ne_of_gt (Nat.zero_lt_of_lt hfuel))
    have hlt := (Subject.text us).offset_lt (Nat.lt_add_one i)
      (by rwa [show (Subject.text us).chars.length = us.length from textChars_length us])
    rw [lastCharLoop, memcmpEq_eq hfit]
    by_cases hfound : search <+: (code.encodeAll us).drop ((Subject.text us).offset (i + 1))
    · exact ⟨(i + 1 : ℕ), by simp only [hfound, decide_true]; rfl, isLast_self hfound⟩
    · obtain ⟨r, hok, hlast⟩ := ih (by omega) (by omega) (show i < fuel by omega)
      refine ⟨r, ?_, isLast_succ (p := fun j => search <+:
        (code.encodeAll us).drop ((Subject.text us).offset j)) hfound hlast⟩
      simp only [hfound, decide_false, bind, Except.bind, Bool.false_eq_true, if_false,
        utf8Prev_text hi]
      rw [if_neg (by omega), show ((i + 1 : ℕ) : ℤ) - 1 = i by omega, hok]

/-- The steps back to the last character at which the search string fits. -/
theorem retreatLoop_spec {stop : ℤ} (hstop : 0 ≤ stop) {fuel i : ℕ} (hi : i ≤ us.length)
    (hfuel : i < fuel) :
    ∃ j ≤ i, retreatLoop (code.encodeAll us) stop fuel ((Subject.text us).offset i) i =
        .ok ((Subject.text us).offset j, (j : ℤ)) ∧ ((Subject.text us).offset j : ℤ) ≤ stop ∧
      ∀ k ≤ i, ((Subject.text us).offset k : ℤ) ≤ stop → k ≤ j := by
  induction i generalizing fuel with
  | zero =>
    obtain ⟨fuel, rfl⟩ := Nat.exists_eq_succ_of_ne_zero (Nat.ne_of_gt hfuel)
    have hzero : (Subject.text us).offset 0 = 0 := Segments.offset_zero _
    refine ⟨0, Nat.le_refl 0, ?_, by rw [hzero]; exact hstop, fun k hk _ => hk⟩
    rw [retreatLoop, hzero, if_neg (by omega)]
  | succ i ih =>
    obtain ⟨fuel, rfl⟩ := Nat.exists_eq_succ_of_ne_zero (Nat.ne_of_gt (Nat.zero_lt_of_lt hfuel))
    rw [retreatLoop]
    by_cases hover : ((Subject.text us).offset (i + 1) : ℤ) > stop
    · obtain ⟨j, hj, hok, hle, hlast⟩ := ih (by omega) (show i < fuel by omega)
      refine ⟨j, by omega, ?_, hle, fun k hk hkle => ?_⟩
      · rw [if_pos hover, utf8Prev_text hi]
        simp only [bind, Except.bind]
        rw [show ((i + 1 : ℕ) : ℤ) - 1 = i by omega, hok]
      · rcases Nat.lt_or_eq_of_le hk with hlt | rfl
        · exact hlast k (Nat.le_of_lt_succ hlt) hkle
        · omega
    · exact ⟨i + 1, Nat.le_refl _, by rw [if_neg hover], by omega, fun k hk _ => hk⟩

end Text

/-- The steps back to an end before the start of the string. -/
theorem retreatLoop_fault {bytes : List UInt8} {stop : ℤ} (hstop : stop < 0) {fuel p : ℕ}
    (index : ℤ) (hfuel : p < fuel) :
    retreatLoop bytes stop fuel p index = .error .fault := by
  induction fuel generalizing p index with
  | zero => omega
  | succ fuel ih =>
    rw [retreatLoop, if_pos (by omega)]
    rcases utf8Prev_cases bytes p with hfault | ⟨p', hp', hok⟩
    · rw [hfault]
      rfl
    · rw [hok]
      exact ih (index - 1) (by omega)

/-! ### What the source computes -/

theorem convertedBound_cast (position : Number) :
    (convertedBound position : ℤ) = lastPositionIndex position := by
  refine Int.toNat_of_nonneg ?_
  unfold lastPositionIndex
  split_ifs
  · decide
  · omega
  · omega

section Search

variable {s t : Subject} {cells : List ℕ} {position : Number}

/-- `lastIndexOf` of a string with more characters. -/
theorem prototypeLastIndexOf_short (hlen : s.chars.length < t.chars.length) :
    prototypeLastIndexOf s.prop cells t.prop position = .ok (-1) := by
  unfold prototypeLastIndexOf
  simp only [s.prop_chars, t.prop_chars]
  rw [if_pos hlen]

/-- `lastIndexOf` of the empty string. -/
theorem prototypeLastIndexOf_nil (ht : t.chars = []) :
    prototypeLastIndexOf s.prop cells t.prop position =
      .ok (min (convertedBound position) s.chars.length : ℕ) := by
  have hcast := convertedBound_cast position
  unfold prototypeLastIndexOf
  simp only [s.prop_chars, t.prop_chars, ht, List.length_nil, Nat.not_lt_zero, if_false, if_true]
  rw [← hcast, Nat.cast_min]

/-- The places below a bound that are reached are all of them. -/
theorem isLast_of_reach {k i : ℕ} {r : ℤ} {p q : ℕ → Prop} (hpq : ∀ j, q j ↔ p j)
    (hik : i ≤ k) (hreach : ∀ j ≤ k, p j → j ≤ i) (h : IsLast {j | j ≤ i ∧ p j} r) :
    IsLast {j | j ≤ k ∧ q j} r := by
  refine isLast_of_eq h fun j => ⟨fun ⟨hj, hq⟩ => ?_, fun ⟨hj, hp⟩ => ?_⟩
  · exact ⟨hreach j hj ((hpq j).mp hq), (hpq j).mp hq⟩
  · exact ⟨Nat.le_trans hj hik, (hpq j).mpr hp⟩

/-- The branch for a byte or ASCII string. -/
theorem lastIndexOfBytes_spec (hs : s.prop.size = s.prop.chars) (ht : t.chars ≠ [])
    (hsize : t.prop.size ≤ s.prop.size) (index : ℕ) :
    ∃ r, lastIndexOfBytes s.prop t.prop index = .ok r ∧
        IsLast {i | i ≤ index ∧ Occurs s t i} r := by
  have hchars := s.prop_chars
  set i := min index (s.prop.size - t.prop.size) with hi
  obtain ⟨r, hok, hlast⟩ := @lastByteLoop_spec s.prop.start t.prop.start (s.prop.size + 1) i
    (by simp only [StringProp.size] at hi hsize ⊢; omega) (by omega)
  refine ⟨r, ?_, isLast_of_reach (fun j => occurs_iff_foundAt hs ht) (Nat.min_le_left _ _)
    (fun j hj hat => ?_) hlast⟩
  · unfold lastIndexOfBytes
    have hindex : (if (index : ℤ) > s.prop.chars - t.prop.size then
        (s.prop.chars : ℤ) - t.prop.size else index) = i := by
      split_ifs <;> omega
    simp only [hindex, hok]
  · have hle := hat.add_le ht
    exact Nat.le_min.mpr ⟨hj, by omega⟩

/-- The branch for a UTF-8 string. -/
theorem lastIndexOfChars_spec (hs : s.prop.size ≠ s.prop.chars) (ht : t.chars ≠ [])
    (hmem : InMemory s cells) (hsize : t.prop.size ≤ s.prop.size) {index : ℕ}
    (hindex : index < s.chars.length) :
    ∃ r, lastIndexOfChars s.prop cells t.prop index = .ok r ∧
      IsLast {i | i ≤ index ∧ Occurs s t i} r := by
  obtain ⟨cells', hoffset⟩ := stringOffset_of_lt hs hmem (Nat.le_of_lt hindex) (.inl hindex)
  obtain ⟨us, rfl, -⟩ := Subject.exists_text hs
  have hlen : (Subject.text us).chars.length = us.length := textChars_length us
  have hcount := (Subject.text us).length_le_size
  obtain ⟨i, hi, hok, hle, hreach⟩ := @retreatLoop_spec us ((Subject.text us).prop.size -
    t.prop.size) (by omega) ((Subject.text us).prop.size + 1) index (by omega) (by omega)
  obtain ⟨r, hok', hlast⟩ := @lastCharLoop_spec us t.prop.start ((Subject.text us).prop.size + 1) i
    (by omega) (by simp only [StringProp.size, Subject.prop] at hle ⊢; omega) (by omega)
  refine ⟨r, ?_, isLast_of_reach
    (fun j => ⟨fun h => h.2, fun h => occurs_of_foundAt (s := .text us) ht h⟩) hi
    (fun j hj hat => ?_) hlast⟩
  · unfold lastIndexOfChars
    rw [Int.toNat_natCast, hoffset]
    simp only [bind, Except.bind]
    rw [show (Subject.text us).prop.start = code.encodeAll us from rfl, hok]
    exact hok'
  · have hfit := FoundAt.add_le (s := .text us) (t := t) hat ht
    exact hreach j hj (by omega)

/-- `lastIndexOf` of a string that is not empty and has room. -/
theorem prototypeLastIndexOf_spec (ht : t.chars ≠ []) (hmem : InMemory s cells)
    (hlen : t.chars.length ≤ s.chars.length) (hsize : t.prop.size ≤ s.prop.size) :
    ∃ r, prototypeLastIndexOf s.prop cells t.prop position = .ok r ∧
      IsLast {i | i ≤ convertedBound position ∧ Occurs s t i} r := by
  have hcast := convertedBound_cast position
  have hpos := List.length_pos_of_ne_nil ht
  unfold prototypeLastIndexOf
  rw [← hcast]
  simp only [s.prop_chars, t.prop_chars]
  rw [if_neg (by omega), if_neg (by omega)]
  set k := convertedBound position
  have hindex : (if (k : ℤ) ≥ s.chars.length then (s.chars.length : ℤ) - 1 else k) =
      (min k (s.chars.length - 1) : ℕ) := by
    split_ifs <;> omega
  rw [hindex]
  have hreach : ∀ j ≤ k, Occurs s t j → j ≤ min k (s.chars.length - 1) := by
    intro j hj hat
    have hle := hat.2.add_le ht
    have hpos' := size_pos ht
    have hlt := s.lt_length (i := j) (by omega)
    exact Nat.le_min.mpr ⟨hj, by omega⟩
  by_cases hs : s.prop.size = s.chars.length
  · obtain ⟨r, hok, hlast⟩ := lastIndexOfBytes_spec (by rwa [s.prop_chars]) ht hsize
      (min k (s.chars.length - 1))
    exact ⟨r, by rw [if_pos hs, hok], isLast_of_reach (fun _ => Iff.rfl) (Nat.min_le_left _ _)
      hreach hlast⟩
  · obtain ⟨r, hok, hlast⟩ := @lastIndexOfChars_spec _ _ _ (by rwa [s.prop_chars]) ht hmem hsize
      (min k (s.chars.length - 1)) (by omega)
    exact ⟨r, by rw [if_neg hs, hok], isLast_of_reach (fun _ => Iff.rfl) (Nat.min_le_left _ _)
      hreach hlast⟩

/-- With more bytes than the string, the search string is compared outside of it. -/
theorem prototypeLastIndexOf_fault (ht : t.chars ≠ []) (hmem : InMemory s cells)
    (hlen : t.chars.length ≤ s.chars.length) (hsize : s.prop.size < t.prop.size) :
    prototypeLastIndexOf s.prop cells t.prop position = .error .fault := by
  have hcast := convertedBound_cast position
  have hpos := List.length_pos_of_ne_nil ht
  unfold prototypeLastIndexOf
  rw [← hcast]
  simp only [s.prop_chars, t.prop_chars]
  rw [if_neg (by omega), if_neg (by omega)]
  set k := convertedBound position
  have hindex : (if (k : ℤ) ≥ s.chars.length then (s.chars.length : ℤ) - 1 else k) =
      (min k (s.chars.length - 1) : ℕ) := by
    split_ifs <;> omega
  rw [hindex]
  by_cases hs : s.prop.size = s.chars.length
  · have hneg : (s.prop.chars : ℤ) - t.prop.size < 0 := by
      rw [s.prop_chars]
      omega
    rw [if_pos hs]
    simp only [lastIndexOfBytes]
    rw [if_pos (by omega), lastByteLoop, memcmpEq, if_neg (mt t.start_eq_nil_iff.mp ht),
      if_neg (by omega)]
    rfl
  · have hs' : s.prop.size ≠ s.prop.chars := by rwa [s.prop_chars]
    obtain ⟨cells', hoffset⟩ := stringOffset_of_lt hs' hmem (k := min k (s.chars.length - 1))
      (by omega) (.inl (by omega))
    have hle := s.offset_le_size (min k (s.chars.length - 1))
    rw [if_neg hs]
    simp only [lastIndexOfChars, Int.toNat_natCast, hoffset, bind, Except.bind]
    rw [retreatLoop_fault (by omega) _ (by omega)]

theorem convertedBound_le (position : Number) :
    (convertedBound position : ℕ∞) ≤ searchBound position := by
  by_cases hnan : position = .nan
  · subst hnan
    exact le_top
  · have hbound : searchBound position = startPosition position := by
      cases position <;> first | rfl | exact absurd rfl hnan
    rw [hbound]
    refine le_trans ?_ (numberToInteger_le position)
    simp only [convertedBound, lastPositionIndex, if_neg hnan]
    exact Nat.cast_le.mpr (by split_ifs <;> omega)

/-- The last place up to the converted position is the last that should be returned. -/
theorem isLast_placesUpTo_iff {r : ℤ}
    (h : IsLast {i | i ≤ convertedBound position ∧ Occurs s t i} r) :
    IsLast (placesUpTo s t (searchBound position)) r ↔ ∀ i, Occurs s t i →
      (i ≤ convertedBound position ↔
        i ≤ searchBound position ∧ i + t.chars.length ≤ s.chars.length) := by
  have hbound := convertedBound_le position
  constructor
  · intro hlast i hat
    rcases h with ⟨rfl, hnone⟩ | ⟨j, rfl, hj⟩
    · rcases hlast with ⟨-, hnone'⟩ | ⟨j', hr, -⟩
      · refine iff_of_false (fun hi => ?_) (fun hi => ?_)
        · exact Set.notMem_empty i (hnone ▸ ⟨hi, hat⟩)
        · exact Set.notMem_empty i (hnone' ▸ ⟨hi.1, hi.2, hat⟩)
      · omega
    · rcases hlast with ⟨hr, -⟩ | ⟨j', hr, hj'⟩
      · omega
      · obtain rfl : j = j' := by exact_mod_cast hr
        refine ⟨fun hi => ⟨le_trans (Nat.cast_le.mpr hi) hbound, ?_⟩, fun hi => ?_⟩
        · have hle := hj.2 ⟨hi, hat⟩
          have hfit := hj'.1.2.1
          omega
        · exact Nat.le_trans (hj'.2 ⟨hi.1, hi.2, hat⟩) hj.1.1
  · intro hall
    refine isLast_of_eq h fun i => ⟨fun ⟨hi, hfit, hat⟩ => ?_, fun ⟨hi, hat⟩ => ?_⟩
    · exact ⟨(hall i hat).mpr ⟨hi, hfit⟩, hat⟩
    · have hboth := (hall i hat).mp hi
      exact ⟨hboth.1, hboth.2, hat⟩

/-- `lastIndexOf` of a string that has room. -/
theorem prototypeLastIndexOf_room (hmem : InMemory s cells)
    (hlen : t.chars.length ≤ s.chars.length) (hsize : t.prop.size ≤ s.prop.size) :
    ∃ r, prototypeLastIndexOf s.prop cells t.prop position = .ok r ∧
      IsLast {i | i ≤ convertedBound position ∧ Occurs s t i} r := by
  by_cases ht : t.chars = []
  · have hoccurs (i : ℕ) (hi : i ≤ s.chars.length) : Occurs s t i := by
      refine ⟨hi, ?_⟩
      rw [FoundAt, t.start_eq_nil_iff.mpr ht]
      exact List.nil_prefix
    refine ⟨_, prototypeLastIndexOf_nil ht, .inr ⟨_, rfl, ⟨Nat.min_le_left _ _, ?_⟩, ?_⟩⟩
    · exact hoccurs _ (Nat.min_le_right _ _)
    · exact fun i hi => Nat.le_min.mpr ⟨hi.1, hi.2.1⟩
  · exact prototypeLastIndexOf_spec ht hmem hlen hsize

end Search

/-- `lastIndexOf` of two well-formed strings does what it should exactly under the condition
above. -/
theorem lastIndexHolds_iff (s t : Subject) (position : Number) :
    LastIndexHolds s t position ↔ LastIndexSafe s t position := by
  unfold LastIndexHolds LastIndexSafe
  rcases Nat.lt_or_ge s.chars.length t.chars.length with hshort | hlen
  · refine iff_of_true (fun cells _ => ⟨-1, prototypeLastIndexOf_short hshort, .inl ⟨rfl, ?_⟩⟩)
      (.inl hshort)
    exact Set.eq_empty_of_forall_notMem fun i hi => by
      have hfit := hi.2.1
      omega
  rw [or_iff_right (Nat.not_lt.mpr hlen)]
  have hmem := inMemory_replicate s
  constructor
  · intro hholds
    obtain ⟨r, hok, hlast⟩ := hholds _ hmem
    have hsize : t.prop.size ≤ s.prop.size := by
      by_contra hlt
      have ht : t.chars ≠ [] := by
        intro ht
        rw [StringProp.size, t.start_eq_nil_iff.mpr ht] at hlt
        exact hlt (Nat.zero_le _)
      rw [prototypeLastIndexOf_fault ht hmem hlen (Nat.lt_of_not_le hlt)] at hok
      exact absurd hok (by simp)
    obtain ⟨r', hok', hlast'⟩ := prototypeLastIndexOf_room hmem hlen hsize
    obtain rfl : r = r' := Except.ok.inj (hok.symm.trans hok')
    exact ⟨hsize, (isLast_placesUpTo_iff hlast').mp hlast⟩
  · rintro ⟨hsize, hall⟩ cells hmem
    obtain ⟨r, hok, hlast⟩ := prototypeLastIndexOf_room hmem hlen hsize
    exact ⟨r, hok, (isLast_placesUpTo_iff hlast).mpr hall⟩

/-- A text of two letters. -/
def twoLetters : Subject := .text [letterA, letterB]

/-- A text of two characters of two bytes. -/
def twoAccents : Subject := .text [letterEAcute, letterEAcute]

/-- Its bytes are compared with what is before the letters. -/
theorem twoLetters_not_lastIndexHolds : ¬ LastIndexHolds twoLetters twoAccents .nan := by
  intro hholds
  obtain ⟨r, hok, -⟩ := hholds [] ⟨by decide, .inr (by simp)⟩
  have hfault : prototypeLastIndexOf twoLetters.prop [] twoAccents.prop .nan = .error .fault := by
    decide
  rw [hfault] at hok
  exact absurd hok (by simp)

end Njs.Str
