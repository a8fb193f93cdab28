import Njs.Array.SparseAgreement

/-!
# Sparse iteration from the end

Where the names in the range are canonical, the comparison puts them in the order of their
indices, and the sorted list read from its end is the loop over the indices that exist.
-/

namespace Njs.Array

variable {d : Doubles} {o : Shape} {r : Range} {qsort : Qsort Key} {lower upper : ℕ}

/-- The difference of two indices is compared as it is. -/
theorem indexesHandler_decimal {i j : ℕ} (hi : i < 2 ^ 53) (hj : j < 2 ^ 53) :
    indexesHandler d (decimal i) (decimal j) = castInt (.finite ((i : ℚ) - j)) := by
  unfold indexesHandler
  rw [d.stringToIndex_decimal hi, d.stringToIndex_decimal hj]
  simp only [Doubles.difference, d.subtract_exact i j hi hj]

/-- Names of indices are in the order of the indices. -/
theorem lt_of_before {i j : ℕ} (hi : i < 2 ^ 53) (hj : j < 2 ^ 53)
    (h : Before (indexesHandler d) (decimal i) (decimal j)) (hne : decimal i ≠ decimal j) :
    i < j := by
  obtain ⟨x, hx, hle⟩ := h
  rw [indexesHandler_decimal hi hj] at hx
  have htruncate : truncate ((i : ℚ) - j) = (i : ℤ) - j := by
    rw [show (i : ℚ) - j = (((i : ℤ) - j : ℤ) : ℚ) by push_cast; rfl, truncate_intCast]
  unfold castInt at hx
  simp only [htruncate] at hx
  split_ifs at hx
  have hij : i ≠ j := fun heq => hne (congrArg decimal heq)
  obtain rfl := Option.some.inj hx
  omega

theorem castUInt32_decimal {i : ℕ} (h : i < 2 ^ 32) :
    (d.stringToIndex (decimal i)).castUInt32 = i := by
  rw [d.stringToIndex_decimal (by omega), castUInt32_natCast h]

theorem mem_reverseKeys {indexes : List Key} {key : Key} {p : ℕ} :
    (key, p) ∈ reverseKeys d lower upper indexes ↔ key ∈ indexes ∧
      outside lower upper (d.stringToIndex key) = false ∧
      (d.stringToIndex key).castUInt32 = p := by
  unfold reverseKeys
  simp only [List.mem_map, List.mem_filter, List.mem_reverse, Prod.mk.injEq, Bool.not_eq_true']
  constructor
  · rintro ⟨key', ⟨hmem, hout⟩, rfl, hp⟩
    exact ⟨hmem, hout, hp⟩
  · rintro ⟨hmem, hout, hp⟩
    exact ⟨key, ⟨hmem, hout⟩, rfl, hp⟩

theorem mem_reverseIndices {key : Key} {p : ℕ} (hupper : upper + 1 < 2 ^ 32) :
    (key, p) ∈ reverseIndices lower upper ↔ key = decimal p ∧ lower ≤ p ∧ p ≤ upper := by
  have hnext : unsigned 32 ((upper : ℤ) + 1) = upper + 1 := by
    rw [show (upper : ℤ) + 1 = ((upper + 1 : ℕ) : ℤ) by push_cast; rfl]
    exact unsigned_natCast hupper
  unfold reverseIndices
  rw [hnext]
  simp only [List.mem_map, List.mem_reverse, List.mem_range'_1, Prod.mk.injEq]
  constructor
  · rintro ⟨i, hi, rfl, rfl⟩
    exact ⟨rfl, by omega, by omega⟩
  · rintro ⟨rfl, hlower, hle⟩
    exact ⟨p, by omega, rfl, rfl⟩

theorem reverseIndices_descending (lower upper : ℕ) :
    (reverseIndices lower upper).Pairwise fun p q => q.2 < p.2 := by
  unfold reverseIndices
  rw [List.pairwise_map, List.pairwise_reverse]
  exact List.pairwise_lt_range'

/-- Lists of calls from the last index to the first are equal if they have the same members. -/
theorem eq_of_descending {l l' : List (Key × ℕ)} (hl : l.Pairwise fun p q => q.2 < p.2)
    (hl' : l'.Pairwise fun p q => q.2 < p.2) (hmem : ∀ p, p ∈ l ↔ p ∈ l') : l = l' := by
  refine List.reverse_injective (eq_of_ascending (List.pairwise_reverse.mpr hl)
    (List.pairwise_reverse.mpr hl') fun p => ?_)
  rw [List.mem_reverse, List.mem_reverse]
  exact hmem p

/-- Canonical names in the range are visited from the last to the first. -/
theorem reverseKeys_descending (hcons : Consistent (indexesHandler d) o.enumerable)
    (hkeys : ∀ key ∈ o.enumerable, inRange d lower upper key = true → ∃ i < 2 ^ 32,
      key = decimal i) :
    (reverseKeys d lower upper (objectIndexes d qsort o.enumerable)).Pairwise
      fun p q => q.2 < p.2 := by
  have hperm := qsort.perm _ _ hcons
  have hnodup : (qsort.sort (indexesHandler d) o.enumerable).Nodup :=
    hperm.nodup_iff.mpr o.enumerable_nodup
  have hindexes : (objectIndexes d qsort o.enumerable).Pairwise
      fun a b => Before (indexesHandler d) a b ∧ a ≠ b :=
    ((qsort.sorted _ _ hcons).and hnodup).sublist (List.takeWhile_prefix _).sublist
  have hcanonical : ∀ key ∈ (objectIndexes d qsort o.enumerable).reverse.filter
      (fun key => !outside lower upper (d.stringToIndex key)), ∃ i < 2 ^ 32, key = decimal i := by
    intro key hkey
    obtain ⟨hmem, hout⟩ := List.mem_filter.mp hkey
    obtain ⟨hmem', hnan⟩ := (mem_objectIndexes hcons).mp (List.mem_reverse.mp hmem)
    exact hkeys key hmem' (inRange_iff.mpr ⟨hnan, by simpa using hout⟩)
  unfold reverseKeys
  rw [List.pairwise_map]
  refine ((List.pairwise_reverse.mpr hindexes).filter _).imp_of_mem
    fun {a b} ha hb ⟨hbefore, hne⟩ => ?_
  obtain ⟨i, hi, rfl⟩ := hcanonical a ha
  obtain ⟨j, hj, rfl⟩ := hcanonical b hb
  simp only
  rw [castUInt32_decimal hi, castUInt32_decimal hj]
  exact lt_of_before (by omega) (by omega) hbefore hne

/-- The own names among the visited keys are those among the indices. -/
theorem reverse_filter_eq (hne : r.lower < r.upper)
    (h : (∀ key ∈ o.names, inRange d r.lower (r.upper - 1) key = false) ∨ ReverseSorted d o r) :
    (reverseKeys d r.lower (r.upper - 1) (objectIndexes d qsort o.enumerable)).filter o.present =
      (reverseIndices r.lower (r.upper - 1)).filter o.present := by
  have hlt := r.lt
  rcases h with hnone | hsorted
  · have hkeys : (reverseKeys d r.lower (r.upper - 1)
        (objectIndexes d qsort o.enumerable)).filter o.present = [] := by
      rw [List.filter_eq_nil_iff]
      rintro ⟨key, p⟩ hmem hname
      obtain ⟨hindex, hout, -⟩ := mem_reverseKeys.mp hmem
      have hnan : d.stringToIndex key ≠ .nan := by simpa using List.mem_takeWhile_imp hindex
      have hrange := hnone key (Shape.present_iff.mp hname)
      rw [inRange_iff.mpr ⟨hnan, hout⟩] at hrange
      cases hrange
    have hindices : (reverseIndices r.lower (r.upper - 1)).filter o.present = [] := by
      rw [List.filter_eq_nil_iff]
      rintro ⟨key, p⟩ hmem hname
      obtain ⟨rfl, hlower, hupper⟩ := (mem_reverseIndices (by omega)).mp hmem
      have hrange := hnone _ (Shape.present_iff.mp hname)
      rw [(inRange_decimal (by omega)).mpr ⟨hlower, hupper⟩] at hrange
      cases hrange
    rw [hkeys, hindices]
  · obtain ⟨hcons, hhidden, hcanonical⟩ := hsorted
    have hdescending := @reverseKeys_descending _ _ qsort _ _ hcons (fun key hmem hrange => by
        obtain ⟨i, hi, rfl⟩ := hcanonical key hmem hrange
        exact ⟨i, by omega, rfl⟩)
    refine eq_of_descending (hdescending.filter _)
      ((reverseIndices_descending _ _).filter _) fun ⟨key, p⟩ => ?_
    rw [List.mem_filter, List.mem_filter, mem_reverseKeys, mem_reverseIndices (by omega),
      mem_objectIndexes hcons, Shape.present_iff]
    constructor
    · rintro ⟨⟨⟨hmem, hnan⟩, hout, rfl⟩, hname⟩
      have hrange := inRange_iff.mpr ⟨hnan, hout⟩
      obtain ⟨i, hi, rfl⟩ := hcanonical key hmem hrange
      rw [castUInt32_decimal (by omega)]
      exact ⟨⟨rfl, (inRange_decimal (by omega)).mp hrange⟩, hname⟩
    · rintro ⟨⟨rfl, hlower, hupper⟩, hname⟩
      have hrange := (inRange_decimal (d := d) (i := p)
        (by omega)).mpr ⟨hlower, hupper⟩
      obtain ⟨hnan, hout⟩ := inRange_iff.mp hrange
      have hmem := (Shape.mem_names.mp hname).resolve_right (hhidden p hlower (by omega))
      exact ⟨⟨⟨hmem, hnan⟩, hout, castUInt32_decimal (by omega)⟩, hname⟩

/-- What `njs_array_reverse_iterator` visits of one key in the range. -/
theorem reverseKeys_singleton {key : Key} (hrange : inRange d lower upper key = true) :
    reverseKeys d lower upper [key] = [(key, (d.stringToIndex key).castUInt32)] := by
  unfold reverseKeys
  simp [(inRange_iff.mp hrange).2]

/-- Nothing else gives the right calls for every `qsort`. -/
theorem reverseSorted_of_filter_eq (hne : r.lower < r.upper)
    (h : ∀ qsort, (reverseKeys d r.lower (r.upper - 1)
      (objectIndexes d qsort o.enumerable)).filter o.present =
        (reverseIndices r.lower (r.upper - 1)).filter o.present)
    (hsome : ∃ key ∈ o.names, inRange d r.lower (r.upper - 1) key = true) :
    ReverseSorted d o r := by
  have hlt := r.lt
  have hcons : Consistent (indexesHandler d) o.enumerable :=
    consistent_of_calls (fun key _ hrange => ⟨_, reverseKeys_singleton hrange⟩) rfl h hsome
  obtain ⟨s, hs⟩ := exists_sorted hcons
  obtain ⟨qsort, -⟩ := exists_qsort (l := o.enumerable) (s := s)
    fun _ => hs
  refine ⟨hcons, fun i hlower hupper hhidden => ?_, fun key hmem hrange => ?_⟩
  · have hcall : (decimal i, i) ∈ (reverseIndices r.lower (r.upper - 1)).filter o.present := by
      rw [List.mem_filter, mem_reverseIndices (by omega), Shape.present_iff]
      exact ⟨⟨rfl, hlower, by omega⟩, Shape.mem_names.mpr (Or.inr hhidden)⟩
    rw [← h qsort, List.mem_filter, mem_reverseKeys, mem_objectIndexes hcons] at hcall
    exact o.not_hidden hcall.1.1.1 hhidden
  · obtain ⟨hnan, hout⟩ := inRange_iff.mp hrange
    have hcall : (key, (d.stringToIndex key).castUInt32) ∈
        (reverseIndices r.lower (r.upper - 1)).filter o.present := by
      rw [← h qsort, List.mem_filter, mem_reverseKeys, mem_objectIndexes hcons,
        Shape.present_iff]
      exact ⟨⟨⟨hmem, hnan⟩, hout, rfl⟩, Shape.mem_names_of_enumerable hmem⟩
    obtain ⟨hkey, -, hle⟩ := (mem_reverseIndices (by omega)).mp (List.mem_filter.mp hcall).1
    exact ⟨_, by omega, hkey⟩

theorem reverseAgrees_iff : ReverseAgrees d o r ↔ ReverseFits d o r := by
  have hlt := r.lt
  unfold ReverseAgrees ReverseFits reverseIterateObject
  by_cases hne : r.lower < r.upper
  · have hlength : unsigned 32 (((r.upper - 1 : ℕ) : ℤ) - r.lower) = r.upper - 1 - r.lower := by
      rw [show ((r.upper - 1 : ℕ) : ℤ) - r.lower = ((r.upper - 1 - r.lower : ℕ) : ℤ) by omega]
      exact unsigned_natCast (by omega)
    rw [hlength]
    by_cases hlarge : largeObjectLength < r.upper - 1 - r.lower
    · simp only [if_pos hlarge, not_le.mpr hlarge, false_or, hne, forall_const]
      constructor
      · intro h
        by_cases hsome : ∃ key ∈ o.names, inRange d r.lower (r.upper - 1) key = true
        · exact Or.inr (reverseSorted_of_filter_eq hne
            (fun qsort => visit_enumerable_eq_iff.mp (h qsort)) hsome)
        · exact Or.inl fun key hkey => by simpa using fun hrange => hsome ⟨key, hkey, hrange⟩
      · intro h qsort
        exact visit_enumerable_eq_iff.mpr (reverse_filter_eq hne h)
    · simp only [if_neg hlarge, not_lt.mp hlarge, true_or, implies_true]
  · have hsmall : r.upper - 1 - r.lower ≤ largeObjectLength := by
      rw [show r.upper - 1 - r.lower = 0 by omega]
      exact Nat.zero_le _
    simp only [hne, false_implies, hsmall, true_or]

/-- Sparse iteration agrees with plain iteration exactly where the conditions hold. -/
theorem sparse_agrees_iff (d : Doubles) (o : Shape) (r : Range) :
    (ForwardAgrees d o r ↔ ForwardFits d o r) ∧ (ReverseAgrees d o r ↔ ReverseFits d o r) :=
  ⟨forwardAgrees_iff, reverseAgrees_iff⟩

/-- An object with one element, at the index 4000. -/
def oneElement : Shape := ⟨[(decimal 4000, true)], List.nodup_singleton _⟩

/-- The handler is called for the one element of the object with the index 0. -/
theorem not_sparse_agrees :
    ¬∀ (d : Doubles) (o : Shape) (r : Range), ForwardAgrees d o r ∧ ReverseAgrees d o r := by
  intro h
  have hfits := forwardAgrees_iff.mp (h .unrounded oneElement ⟨0, 5000, by decide, by decide⟩).1
  have hmem : decimal 4000 ∈ oneElement.enumerable := List.mem_singleton_self _
  have hrange : inRange .unrounded 0 5000 (decimal 4000) = true :=
    (inRange_decimal (by decide)).mpr (by decide)
  rcases hfits with hsmall | hnone | ⟨-, -, hplace⟩
  · exact absurd hsmall (by decide)
  · have hout := hnone _ (Shape.mem_names_of_enumerable hmem)
    rw [hrange] at hout
    cases hout
  · obtain ⟨i, -, hkey, hcount, -⟩ := hplace _ hmem hrange
    have hle : i ≤ 1 := by
      rw [hcount]
      exact List.countP_le_length
    have hi := decimal_injective .unrounded (by decide) (by omega) hkey
    omega

end Njs.Array
