import Njs.Str.Occurrences

/-!
# The first occurrence

`indexOf` steps over characters and `includes` over bytes. For a text that is searched for they
agree, as a text begins at a character only; for a byte string they may not. The empty string is
found at any position, and its position at the end of a string may need a cell that there is not.
-/

namespace Njs.Str

open Utf8 Lib

/-- The characters from a position on at which a string occurs. -/
def placesFrom (s t : Subject) (start : ℕ∞) : Set ℕ := {i | start ≤ i ∧ Occurs s t i}

/-- The position from which `indexOf` and `includes` search. -/
def searchStart (position : Option Number) : ℕ∞ := position.elim 0 startPosition

/-- What `indexOf` returns: the first occurrence, or the position if the search string is
empty. -/
def IsIndexOf (s t : Subject) (start : ℕ∞) (r : ℤ) : Prop :=
  if t.chars = [] then ∃ i : ℕ, r = i ∧ (i : ℕ∞) = min start s.chars.length
  else IsFirst (placesFrom s t start) r

/-- `indexOf` and `includes` return what they should, and agree, whatever the state of the
offset map. -/
def SearchHolds (s t : Subject) (position : Option Number) : Prop :=
  ∀ cells, InMemory s cells → ∃ r found,
    prototypeIndexOf s.prop cells t.prop position = .ok r ∧
    prototypeIncludes s.prop cells t.prop position = .ok found ∧
    IsIndexOf s t (searchStart position) r ∧
    (found = true ↔ t.chars = [] ∨ (placesFrom s t (searchStart position)).Nonempty) ∧
    (found = true ↔ r ≠ -1)

/-- The position as the source has it. -/
def convertedStart (position : Option Number) : ℕ := (positionIndex position).toNat

/-- The conversion of the position leaves the result as it is; the empty string is not searched
at the end of a text that ends with a full stride; and a byte string in a text is not found
inside of a character, nor given up because it has more bytes than characters are left. -/
def SearchSafe (s t : Subject) (position : Option Number) : Prop :=
  let start := searchStart position
  let k := convertedStart position
  if t.chars = [] then
    min start s.chars.length = min (k : ℕ∞) s.chars.length ∧
      ¬ (s.prop.size ≠ s.prop.chars ∧ k = s.chars.length ∧ mapStride ∣ k)
  else if k + t.chars.length ≤ s.chars.length then
    (∀ i ∈ placesFrom s t k, start ≤ i) ∧
      ∀ off, s.offset k ≤ off → FoundAt s t off → (placesFrom s t start).Nonempty
  else placesFrom s t start = ∅

/-! ### What the source computes -/

theorem positionIndex_nonneg (position : Option Number) : 0 ≤ positionIndex position := by
  unfold positionIndex
  split
  · exact Int.le_refl 0
  · split_ifs <;> omega

theorem convertedStart_cast (position : Option Number) :
    (convertedStart position : ℤ) = positionIndex position :=
  Int.toNat_of_nonneg (positionIndex_nonneg position)

theorem convertedStart_le (position : Option Number) :
    (convertedStart position : ℕ∞) ≤ searchStart position := by
  cases position with
  | none => exact Nat.cast_le.mpr (Nat.le_refl 0)
  | some n =>
    refine le_trans ?_ (numberToInteger_le n)
    simp only [convertedStart, positionIndex]
    exact Nat.cast_le.mpr (by split_ifs <;> omega)

section Search

variable {s t : Subject} {cells : List ℕ} {position : Option Number}

/-- The end of the scan is one byte after the last place where the string fits. -/
theorem stop_eq (s t : Subject) : (s.prop.size : ℤ) - (t.prop.size - 1) =
    (s.prop.start.length : ℤ) - ((t.prop.start.length : ℤ) - 1) := rfl

/-- The scan over bytes. -/
theorem byteScan_spec (ht : t.chars ≠ []) (k index : ℕ) :
    (searchLoop s.prop.start t.prop.start (s.prop.size - (t.prop.size - 1)) (· + 1)
        (s.prop.size + 2) k index = .ok none ∧ ∀ j, k ≤ j → ¬ FoundAt s t j) ∨
    ∃ j, k ≤ j ∧ searchLoop s.prop.start t.prop.start (s.prop.size - (t.prop.size - 1)) (· + 1)
        (s.prop.size + 2) k index = .ok (some (index + (j - k))) ∧ FoundAt s t j ∧
      ∀ j', k ≤ j' → j' < j → ¬ FoundAt s t j' := by
  have hpos := size_pos ht
  exact searchLoop_spec (mt t.start_eq_nil_iff.mp ht) (stop_eq s t)
    monotone_id (fun j _ => ⟨Nat.lt_succ_self j, .inl rfl⟩) (s.prop.size + 2) k index (by omega)

/-- The scan over characters. -/
theorem charScan_spec {us : List CodePoint} (ht : t.chars ≠ []) (k index : ℕ) :
    let s := Subject.text us
    let stop : ℤ := s.prop.size - (t.prop.size - 1)
    (searchLoop s.prop.start t.prop.start stop (utf8NextTo s.prop.start stop) (s.prop.size + 2)
        (s.offset k) index = .ok none ∧ ∀ j, k ≤ j → ¬ FoundAt s t (s.offset j)) ∨
    ∃ j, k ≤ j ∧ searchLoop s.prop.start t.prop.start stop (utf8NextTo s.prop.start stop)
        (s.prop.size + 2) (s.offset k) index = .ok (some (index + (j - k))) ∧
      FoundAt s t (s.offset j) ∧ ∀ j', k ≤ j' → j' < j → ¬ FoundAt s t (s.offset j') := by
  intro s stop
  have hpos := size_pos ht
  refine searchLoop_spec (mt t.start_eq_nil_iff.mp ht) (stop_eq s t) s.offset_mono
    (fun j hj => ?_) (s.prop.size + 2) k index (by omega)
  have hlt : j < us.length := by
    have hlt := s.lt_length (i := j) (by omega)
    rwa [show s.chars.length = us.length from textChars_length us] at hlt
  exact ⟨s.offset_lt (Nat.lt_succ_self j) (by rwa [show s.chars.length = us.length from
    textChars_length us]), utf8NextTo_text stop hlt⟩

theorem occurs_of_foundAt (ht : t.chars ≠ []) {i : ℕ} (h : FoundAt s t (s.offset i)) :
    Occurs s t i := by
  have hle := h.add_le ht
  have hpos := size_pos ht
  exact ⟨Nat.le_of_lt (s.lt_length (by omega)), h⟩

/-- In a byte or ASCII string any byte is a character. -/
theorem occurs_iff_foundAt (hs : s.prop.size = s.prop.chars) (ht : t.chars ≠ []) {i : ℕ} :
    Occurs s t i ↔ FoundAt s t i := by
  constructor
  · rintro ⟨hi, hfound⟩
    rwa [Subject.offset_eq_self hs hi] at hfound
  · intro hfound
    have hle := hfound.add_le ht
    have hi : i ≤ s.chars.length := by
      rw [← s.prop_chars, ← hs]
      omega
    exact ⟨hi, by rwa [Subject.offset_eq_self hs hi]⟩

/-- The scan of `indexOf` finds the first place from an index on. -/
theorem isFirst_of_scan {found : Option ℕ} {k : ℕ}
    (h : (found = none ∧ ∀ j, k ≤ j → ¬ Occurs s t j) ∨
      ∃ j, k ≤ j ∧ found = some (k + (j - k)) ∧ Occurs s t j ∧
        ∀ j', k ≤ j' → j' < j → ¬ Occurs s t j') :
    IsFirst (placesFrom s t k) (found.elim (-1) fun i => i) := by
  rcases h with ⟨rfl, hnone⟩ | ⟨j, hj, rfl, hat, hleast⟩
  · refine .inl ⟨rfl, Set.eq_empty_of_forall_notMem fun i hi => ?_⟩
    exact hnone i (Nat.cast_le.mp hi.1) hi.2
  · refine .inr ⟨j, ?_, ⟨Nat.cast_le.mpr hj, hat⟩, fun i hi => ?_⟩
    · rw [Nat.add_sub_cancel' hj]
      rfl
    · by_contra hlt
      exact hleast i (Nat.cast_le.mp hi.1) (Nat.lt_of_not_le hlt) hi.2

theorem stringOffset_of_lt (hs : s.prop.size ≠ s.prop.chars) (hmem : InMemory s cells) {k : ℕ}
    (hk : k ≤ s.chars.length) (hend : k < s.chars.length ∨ ¬ mapStride ∣ k) :
    ∃ cells', stringOffset s.prop cells k = .ok (s.offset k, cells') := by
  obtain ⟨us, rfl, hascii⟩ := Subject.exists_text hs
  simp only [Subject.chars, textChars_length] at hk hend
  have hend' : k < us.length ∨ k < mapStride ∨ k % mapStride ≠ 0 :=
    hend.imp_right fun h => .inr fun hmod => h (Nat.dvd_of_mod_eq_zero hmod)
  obtain ⟨cells', hok, -⟩ := stringOffset_text_le hk hend' (.inr hascii) cells hmem
  exact ⟨cells', hok⟩

theorem charPlace_of_lt (hmem : InMemory s cells) {k : ℕ} (hk : k ≤ s.chars.length)
    (hend : k < s.chars.length ∨ ¬ mapStride ∣ k) :
    charPlace s.prop cells k = .ok (s.offset k) := by
  unfold charPlace
  split_ifs with hs
  · rw [Subject.offset_eq_self hs hk]
  · obtain ⟨cells', hoffset⟩ := stringOffset_of_lt hs hmem hk hend
    rw [hoffset]
    rfl

/-- `indexOf` of a string that is not empty and has room. -/
theorem prototypeIndexOf_spec (ht : t.chars ≠ []) (hmem : InMemory s cells)
    (hfit : convertedStart position + t.chars.length ≤ s.chars.length) :
    ∃ r, prototypeIndexOf s.prop cells t.prop position = .ok r ∧
      IsFirst (placesFrom s t (convertedStart position)) r := by
  have hcast := convertedStart_cast position
  have hpos := List.length_pos_of_ne_nil ht
  unfold prototypeIndexOf
  rw [← hcast]
  simp only [s.prop_chars, t.prop_chars, Int.toNat_natCast]
  set k := convertedStart position
  rw [if_pos (by omega)]
  by_cases hs : s.prop.size = s.chars.length
  · rw [if_pos hs]
    have hs' : s.prop.size = s.prop.chars := by rw [hs, s.prop_chars]
    have hscan := byteScan_spec (s := s) ht k k
    simp only [← occurs_iff_foundAt hs' ht] at hscan
    rcases hscan with ⟨hok, hnone⟩ | ⟨j, hj, hok, hat, hleast⟩
    · exact ⟨_, by rw [hok]; rfl, isFirst_of_scan (.inl ⟨rfl, hnone⟩)⟩
    · exact ⟨_, by rw [hok]; rfl, isFirst_of_scan (.inr ⟨j, hj, rfl, hat, hleast⟩)⟩
  · rw [if_neg hs]
    have hs' : s.prop.size ≠ s.prop.chars := by rwa [s.prop_chars]
    obtain ⟨cells', hoffset⟩ := stringOffset_of_lt hs' hmem (k := k) (by omega) (.inl (by omega))
    obtain ⟨us, rfl, -⟩ := Subject.exists_text hs'
    rw [hoffset]
    simp only [bind, Except.bind]
    rcases charScan_spec ht k k with ⟨hok, hnone⟩ | ⟨j, hj, hok, hat, hleast⟩
    · exact ⟨_, by rw [hok], isFirst_of_scan (.inl ⟨rfl, fun j hj h => hnone j hj h.2⟩)⟩
    · exact ⟨_, by rw [hok], isFirst_of_scan (.inr ⟨j, hj, rfl, occurs_of_foundAt ht hat,
        fun j' hj' hlt h => hleast j' hj' hlt h.2⟩)⟩

/-- `indexOf` gives up if the search string has more characters than are left. -/
theorem prototypeIndexOf_short (ht : t.chars ≠ [])
    (hfit : ¬ convertedStart position + t.chars.length ≤ s.chars.length) :
    prototypeIndexOf s.prop cells t.prop position = .ok (-1) := by
  have hcast := convertedStart_cast position
  have hsize := size_pos ht
  unfold prototypeIndexOf
  rw [← hcast]
  simp only [s.prop_chars, t.prop_chars]
  rw [if_neg (by omega), if_neg (by omega)]

/-- `includes` of a string that is not empty. -/
theorem prototypeIncludes_spec (ht : t.chars ≠ []) (hmem : InMemory s cells) :
    ∃ found, prototypeIncludes s.prop cells t.prop position = .ok found ∧
      (found = true ↔ convertedStart position + t.chars.length ≤ s.chars.length ∧
        ∃ off, s.offset (convertedStart position) ≤ off ∧ FoundAt s t off) := by
  have hcast := convertedStart_cast position
  have hpos := List.length_pos_of_ne_nil ht
  unfold prototypeIncludes
  rw [← hcast]
  simp only [s.prop_chars, t.prop_chars, Int.toNat_natCast]
  set k := convertedStart position
  rw [if_neg (by omega)]
  by_cases hfit : k + t.chars.length ≤ s.chars.length
  · rw [if_pos (by omega), charPlace_of_lt hmem (by omega) (.inl (by omega))]
    simp only [bind, Except.bind]
    rcases byteScan_spec (s := s) ht (s.offset k) 0 with ⟨hok, hnone⟩ | ⟨j, hj, hok, hat, -⟩
    · refine ⟨false, by rw [hok]; rfl, iff_of_false (by simp) ?_⟩
      rintro ⟨-, off, hoff, hat⟩
      exact hnone off hoff hat
    · exact ⟨true, by rw [hok]; rfl, iff_of_true rfl ⟨hfit, j, hj, hat⟩⟩
  · rw [if_neg (by omega)]
    exact ⟨false, rfl, iff_of_false (by simp) fun h => hfit h.1⟩

theorem searchLoop_nil {bytes : List UInt8} {stop : ℤ} {next : ℕ → ℕ} {fuel p index : ℕ}
    (hp : (p : ℤ) < stop) :
    searchLoop bytes [] stop next (fuel + 1) p index = .ok (some index) := by
  rw [searchLoop, if_pos hp]
  rfl

/-- `indexOf` of the empty string. -/
theorem prototypeIndexOf_nil (ht : t.chars = []) (hmem : InMemory s cells)
    (hmap : ¬ (s.prop.size ≠ s.prop.chars ∧ convertedStart position = s.chars.length ∧
      mapStride ∣ convertedStart position)) :
    prototypeIndexOf s.prop cells t.prop position =
      .ok (min (convertedStart position) s.chars.length : ℕ) := by
  have hcast := convertedStart_cast position
  have hstart := t.start_eq_nil_iff.mpr ht
  have hsize : t.prop.size = 0 := by rw [StringProp.size, hstart, List.length_nil]
  have hlen := s.length_le_size
  unfold prototypeIndexOf
  rw [← hcast]
  rw [s.prop_chars] at hmap
  simp only [s.prop_chars, t.prop_chars, Int.toNat_natCast, ht, List.length_nil, hsize, hstart]
  set k := convertedStart position
  by_cases hfit : k ≤ s.chars.length
  · rw [if_pos (by omega), Nat.min_eq_left hfit]
    by_cases hs : s.prop.size = s.chars.length
    · rw [if_pos hs, searchLoop_nil (by omega)]
      rfl
    · have hs' : s.prop.size ≠ s.prop.chars := by rwa [s.prop_chars]
      have hend : k < s.chars.length ∨ ¬ mapStride ∣ k := by
        rcases Nat.lt_or_eq_of_le hfit with hlt | heq
        · exact .inl hlt
        · exact .inr fun hdvd => hmap ⟨hs, heq, hdvd⟩
      obtain ⟨cells', hoffset⟩ := stringOffset_of_lt hs' hmem hfit hend
      have hle := s.offset_le_size k
      rw [if_neg hs, hoffset]
      simp only [bind, Except.bind]
      rw [searchLoop_nil (by omega)]
      rfl
  · rw [if_neg (by omega), Nat.min_eq_right (by omega)]
    rfl

/-- At the end of a text that ends with a full stride, there is no cell for its length. -/
theorem stringOffset_end (hs : s.prop.size ≠ s.prop.chars) (hdvd : mapStride ∣ s.chars.length)
    (hmem : InMemory s cells) : stringOffset s.prop cells s.chars.length = .error .fault := by
  obtain ⟨us, rfl, hascii⟩ := Subject.exists_text hs
  rw [show (Subject.text us).chars.length = us.length from textChars_length us] at hdvd ⊢
  have hne : us.length ≠ 0 := by
    rintro hnil
    rw [List.length_eq_zero_iff.mp hnil] at hascii
    exact hascii rfl
  obtain ⟨m, hm⟩ := hdvd
  have hstride : us.length ≥ mapStride := by
    simp only [mapStride] at hm ⊢
    omega
  unfold stringOffset offsetStart
  rw [if_pos hstride]
  rcases Nat.lt_or_eq_of_le hstride with hlong | heq
  · obtain ⟨cells', hok, hlen, -⟩ := initializedMap_spec hascii hlong hmem
    have hcell : cells'[us.length / mapStride - 1]? = none := by
      rw [List.getElem?_eq_none_iff, hlen]
      simp only [mapStride] at hm ⊢
      omega
    simp only [Subject.prop, hok, readCell, hcell, bind, Except.bind]
  · have hcells : cells = [] := by
      rw [← List.length_eq_zero_iff, hmem.length]
      exact if_neg fun h => absurd h.2 (by simp [Subject.prop, heq])
    rw [hcells, initializedMap_nil]
    rfl

/-- `indexOf` of the empty string there. -/
theorem prototypeIndexOf_fault (ht : t.chars = []) (hs : s.prop.size ≠ s.prop.chars)
    (hend : convertedStart position = s.chars.length) (hdvd : mapStride ∣ s.chars.length)
    (hmem : InMemory s cells) :
    prototypeIndexOf s.prop cells t.prop position = .error .fault := by
  have hcast := convertedStart_cast position
  unfold prototypeIndexOf
  rw [← hcast, hend]
  rw [s.prop_chars] at hs
  simp only [s.prop_chars, t.prop_chars, ht, List.length_nil, Int.toNat_natCast]
  rw [if_pos (by omega), if_neg hs, stringOffset_end (by rwa [s.prop_chars]) hdvd hmem]
  rfl

/-- `includes` of the empty string. -/
theorem prototypeIncludes_nil (ht : t.chars = []) :
    prototypeIncludes s.prop cells t.prop position = .ok true := by
  unfold prototypeIncludes
  rw [t.prop_chars, ht]
  rfl

theorem placesFrom_subset {k start : ℕ∞} (hle : k ≤ start) :
    placesFrom s t start ⊆ placesFrom s t k := fun _ hi => ⟨le_trans hle hi.1, hi.2⟩

/-- The first place from one position is the first from a greater one, if it is there. -/
theorem isFirst_placesFrom_iff {k start : ℕ∞} (hle : k ≤ start) {r : ℤ}
    (h : IsFirst (placesFrom s t k) r) :
    IsFirst (placesFrom s t start) r ↔ ∀ i ∈ placesFrom s t k, start ≤ i := by
  constructor
  · intro hstart i hi
    rcases h with ⟨-, hnone⟩ | ⟨j, rfl, hj⟩
    · exact absurd hi (by simp [hnone])
    · rcases hstart with ⟨hr, -⟩ | ⟨j', hr, hj'⟩
      · omega
      · obtain rfl : j = j' := by exact_mod_cast hr
        exact le_trans hj'.1.1 (Nat.cast_le.mpr (hj.2 hi))
  · intro hall
    have heq : placesFrom s t start = placesFrom s t k :=
      Set.Subset.antisymm (placesFrom_subset hle) fun i hi => ⟨hall i hi, hi.2⟩
    rwa [heq]

theorem IsFirst.ne_iff {places : Set ℕ} {r : ℤ} (h : IsFirst places r) :
    r ≠ -1 ↔ places.Nonempty := by
  rcases h with ⟨rfl, hnone⟩ | ⟨i, rfl, hi⟩
  · simp [hnone]
  · exact iff_of_true (by omega) ⟨i, hi.1⟩

theorem cast_min (k n : ℕ) : ((min k n : ℕ) : ℕ∞) = min (k : ℕ∞) n :=
  Nat.mono_cast.map_min

theorem searchHolds_nil (ht : t.chars = []) :
    SearchHolds s t position ↔ SearchSafe s t position := by
  unfold SearchHolds SearchSafe
  simp only [IsIndexOf, prototypeIncludes_nil ht, ht, if_true, true_or, iff_true]
  constructor
  · intro hholds
    obtain ⟨r, found, hindex, -, ⟨i, rfl, hi⟩, -⟩ := hholds _ (inMemory_replicate s)
    have hmap : ¬ (s.prop.size ≠ s.prop.chars ∧ convertedStart position = s.chars.length ∧
        mapStride ∣ convertedStart position) := by
      rintro ⟨hs, hend, hdvd⟩
      rw [prototypeIndexOf_fault ht hs hend (hend ▸ hdvd) (inMemory_replicate s)] at hindex
      exact absurd hindex (by simp)
    rw [prototypeIndexOf_nil ht (inMemory_replicate s) hmap] at hindex
    refine ⟨?_, hmap⟩
    rw [← hi, ← cast_min]
    exact_mod_cast (Except.ok.inj hindex).symm
  · rintro ⟨hmin, hmap⟩ cells hmem
    refine ⟨_, true, prototypeIndexOf_nil ht hmem hmap, rfl, ⟨_, rfl, ?_⟩, rfl, ?_⟩
    · rw [hmin, cast_min]
    · exact iff_of_true rfl (by omega)

theorem searchHolds_fit (ht : t.chars ≠ [])
    (hfit : convertedStart position + t.chars.length ≤ s.chars.length) :
    SearchHolds s t position ↔ SearchSafe s t position := by
  unfold SearchHolds SearchSafe IsIndexOf
  simp only [if_pos hfit, ht, false_or]
  constructor
  · intro hholds
    have hmem := inMemory_replicate s
    obtain ⟨r, found, hindex, hincludes, hfirst, hfound, -⟩ := hholds _ hmem
    obtain ⟨r', hindex', hfirst'⟩ := prototypeIndexOf_spec ht hmem hfit
    obtain rfl : r = r' := Except.ok.inj (hindex.symm.trans hindex')
    obtain ⟨found', hincludes', hfound'⟩ :=
      prototypeIncludes_spec ht hmem
    obtain rfl : found = found' := Except.ok.inj (hincludes.symm.trans hincludes')
    refine ⟨(isFirst_placesFrom_iff (convertedStart_le position) hfirst').mp hfirst,
      fun off hoff hat => hfound.mp (hfound'.mpr ⟨hfit, off, hoff, hat⟩)⟩
  · rintro ⟨hstart, hinside⟩ cells hmem
    obtain ⟨r, hindex, hfirst⟩ := prototypeIndexOf_spec ht hmem hfit
    obtain ⟨found, hincludes, hfound⟩ := prototypeIncludes_spec ht hmem
    have hfirst' := (isFirst_placesFrom_iff (convertedStart_le position) hfirst).mpr hstart
    have hiff : found = true ↔ (placesFrom s t (searchStart position)).Nonempty := by
      rw [hfound]
      constructor
      · rintro ⟨-, off, hoff, hat⟩
        exact hinside off hoff hat
      · rintro ⟨i, hi⟩
        have hle := Nat.cast_le.mp (placesFrom_subset (convertedStart_le position) hi).1
        exact ⟨hfit, s.offset i, s.offset_mono hle, hi.2.2⟩
    exact ⟨r, found, hindex, hincludes, hfirst', hiff, hiff.trans hfirst'.ne_iff.symm⟩

theorem searchHolds_short (ht : t.chars ≠ [])
    (hfit : ¬ convertedStart position + t.chars.length ≤ s.chars.length) :
    SearchHolds s t position ↔ SearchSafe s t position := by
  unfold SearchHolds SearchSafe IsIndexOf
  simp only [if_neg ht, if_neg hfit, prototypeIndexOf_short ht hfit]
  constructor
  · intro hholds
    obtain ⟨r, found, hindex, -, hfirst, -⟩ := hholds _ (inMemory_replicate s)
    obtain rfl := Except.ok.inj hindex
    exact Set.not_nonempty_iff_eq_empty.mp fun hne => hfirst.ne_iff.mpr hne rfl
  · intro hnone cells hmem
    obtain ⟨found, hincludes, hfound⟩ := prototypeIncludes_spec ht hmem
    have hfalse : ¬ found = true := fun h => hfit (hfound.mp h).1
    refine ⟨-1, found, rfl, hincludes, .inl ⟨rfl, hnone⟩, iff_of_false hfalse ?_,
      iff_of_false hfalse (by simp)⟩
    simp [ht, hnone]

end Search

/-- `indexOf` and `includes` of two well-formed strings do what they should exactly under the
condition above. -/
theorem searchHolds_iff (s t : Subject) (position : Option Number) :
    SearchHolds s t position ↔ SearchSafe s t position := by
  by_cases ht : t.chars = []
  · exact searchHolds_nil ht
  · by_cases hfit : convertedStart position + t.chars.length ≤ s.chars.length
    · exact searchHolds_fit ht hfit
    · exact searchHolds_short ht hfit

/-- The empty string is searched in a text of 31 letters and one character of two bytes, from
its end on. -/
theorem strideText_not_searchHolds : ¬ SearchHolds strideText (.text []) (some (.finite 32)) := by
  intro hholds
  obtain ⟨r, found, hindex, -⟩ := hholds _ (inMemory_replicate strideText)
  have hfault : prototypeIndexOf strideText.prop (List.replicate (mapCells strideText.prop) 0)
      (Subject.text []).prop (some (.finite 32)) = .error .fault := by
    decide
  rw [hfault] at hindex
  exact absurd hindex (by simp)

end Njs.Str
