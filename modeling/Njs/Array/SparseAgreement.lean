import Njs.Array.Sparse

/-!
# Where sparse iteration agrees with plain iteration

The conditions are exact. A key that both iterations pass to the handler at all is at the
place in the sorted list that it names, in the forward direction, and is canonical, in the
reverse direction; and `qsort` may leave keys that compare equal in any order, and anything
at all where the comparison is not consistent.
-/

namespace Njs.Array

variable {d : Doubles} {o : Shape} {r : Range} {qsort : Qsort Key} {lower upper : ℕ}

theorem Shape.not_hidden (o : Shape) {key : Key} (h : key ∈ o.enumerable) :
    (key, false) ∉ o.keys := by
  intro hhidden
  have hflag := List.inj_on_of_nodup_map o.nodup (Shape.mem_enumerable.mp h) hhidden rfl
  cases hflag

theorem swap_mem {s : List Key} {a b x : Key} (ha : a ∈ s) (hb : b ∈ s) (hx : x ∈ s) :
    Equiv.swap a b x ∈ s := by
  rw [Equiv.swap_apply_def]
  split_ifs <;> assumption

/-! ## What `qsort` may do -/

/-- `qsort` may give any order that the comparison allows, and anything for a comparison
that is not consistent. -/
theorem exists_qsort {κ : Type} {compare : κ → κ → Option ℤ} {l s : List κ}
    (h : Consistent compare l → s.Perm l ∧ s.Pairwise (Before compare)) :
    ∃ qsort : Qsort κ, qsort.sort compare l = s := by
  classical
  have hsort : ∀ p : (κ → κ → Option ℤ) × List κ, ∃ s', (Consistent p.1 p.2 →
      s'.Perm p.2 ∧ s'.Pairwise (Before p.1)) ∧ (p = (compare, l) → s' = s) := by
    intro p
    by_cases hp : p = (compare, l)
    · exact ⟨s, by rw [hp]; exact h, fun _ => rfl⟩
    · by_cases hcons : Consistent p.1 p.2
      · obtain ⟨s', hs'⟩ := exists_sorted hcons
        exact ⟨s', fun _ => hs', fun heq => absurd heq hp⟩
      · exact ⟨[], fun hc => absurd hc hcons, fun heq => absurd heq hp⟩
  choose sort hsort using hsort
  exact ⟨⟨fun compare l => sort (compare, l), fun compare l hc => ((hsort (compare, l)).1 hc).1,
    fun compare l hc => ((hsort (compare, l)).1 hc).2⟩, (hsort (compare, l)).2 rfl⟩

/-- The sorted keys are the enumerable keys with a number. -/
theorem mem_objectIndexes {keys : List Key} {key : Key} (h : Consistent (indexesHandler d) keys) :
    key ∈ objectIndexes d qsort keys ↔ key ∈ keys ∧ d.stringToIndex key ≠ .nan := by
  have hperm := qsort.perm _ _ h
  constructor
  · intro hmem
    exact ⟨hperm.mem_iff.mp ((List.takeWhile_prefix _).sublist.subset hmem),
      by simpa using List.mem_takeWhile_imp hmem⟩
  · rintro ⟨hmem, hkey⟩
    obtain ⟨p, hp⟩ := List.getElem?_of_mem (hperm.mem_iff.mpr hmem)
    exact List.mem_of_getElem? ((getElem?_objectIndexes h hkey).mpr hp)

/-- A list with a key that reads as a number, in the place of sorted keys. -/
theorem objectIndexes_singleton {keys : List Key} {key : Key}
    (hsort : qsort.sort (indexesHandler d) keys = [key]) (hkey : d.stringToIndex key ≠ .nan) :
    objectIndexes d qsort keys = [key] := by
  unfold objectIndexes
  rw [hsort]
  simp [hkey]

theorem objectIndexes_nil {keys : List Key} (hsort : qsort.sort (indexesHandler d) keys = []) :
    objectIndexes d qsort keys = [] := by
  unfold objectIndexes
  rw [hsort]
  rfl

theorem Shape.present_iff {p : Key × ℕ} : o.present p = true ↔ p.1 ∈ o.names := by
  unfold present
  simp

/-- If the visited calls do not depend on `qsort`, the comparison is consistent, or there is
nothing to visit. -/
theorem consistent_of_calls {visited : List Key → List (Key × ℕ)} {calls : List (Key × ℕ)}
    (hvisited : ∀ key ∈ o.names, inRange d lower upper key = true →
      ∃ i, visited [key] = [(key, i)])
    (hnil : visited [] = [])
    (h : ∀ qsort, (visited (objectIndexes d qsort o.enumerable)).filter o.present = calls)
    (hsome : ∃ key ∈ o.names, inRange d lower upper key = true) :
    Consistent (indexesHandler d) o.enumerable := by
  obtain ⟨key, hname, hrange⟩ := hsome
  by_contra hcons
  obtain ⟨qsort, hsort⟩ := exists_qsort (l := o.enumerable)
    (s := []) fun hc => absurd hc hcons
  obtain ⟨qsort', hsort'⟩ := exists_qsort (l := o.enumerable)
    (s := [key]) fun hc => absurd hc hcons
  obtain ⟨i, hkey⟩ := hvisited key hname hrange
  have hempty := h qsort
  rw [objectIndexes_nil hsort, hnil] at hempty
  have hone := h qsort'
  rw [objectIndexes_singleton hsort' (inRange_iff.mp hrange).1, hkey,
    List.filter_cons_of_pos (Shape.present_iff.mpr hname), ← hempty] at hone
  cases hone

/-- Calls for a list that depends on the enumerable keys. -/
theorem visit_enumerable_eq_iff {visited : List Key → List (Key × ℕ)} {l' : List (Key × ℕ)} :
    (∀ (α σ : Type) (v : Key → α) (m : Type → Type) [Monad m] [LawfulMonad m]
      (handler : σ → Option α → ℕ → m (σ × Bool)) (data : σ), SkipsMissing handler →
      ((pure o.enumerable : m (List Key)) >>= fun keys =>
        visit (fun key => pure (o.property v key)) handler data (visited keys)) =
        visit (fun key => pure (o.property v key)) handler data l') ↔
      (visited o.enumerable).filter o.present = l'.filter o.present := by
  rw [← visit_eq_iff]
  constructor
  · intro h α σ v m _ _ handler data hskip
    have hcalls := h α σ v m handler data hskip
    rwa [pure_bind] at hcalls
  · intro h α σ v m _ _ handler data hskip
    rw [pure_bind]
    exact h α σ v m handler data hskip

/-! ## The forward iteration -/

/-- The own names among the visited keys are those among the indices. -/
theorem forward_filter_eq (h : (∀ key ∈ o.names, inRange d r.lower r.upper key = false) ∨
    ForwardSorted d o r) :
    (forwardKeys d r.lower r.upper (objectIndexes d qsort o.enumerable)).filter o.present =
      (forwardIndices r.lower r.upper).filter o.present := by
  have hlt := r.lt
  refine eq_of_ascending ((forwardKeys_ascending _).filter _)
    ((forwardIndices_ascending _ _).filter _) fun ⟨key, p⟩ => ?_
  rw [List.mem_filter, List.mem_filter, mem_forwardKeys, mem_forwardIndices]
  simp only [Shape.present, decide_eq_true_eq]
  rcases h with hnone | ⟨hcons, hhidden, hkeys⟩
  · constructor
    · rintro ⟨⟨-, hrange⟩, hname⟩
      rw [hnone key hname] at hrange
      cases hrange
    · rintro ⟨⟨rfl, hlower, hupper⟩, hname⟩
      have hrange := (@inRange_decimal d _ r.upper p (by omega)).mpr ⟨hlower, by omega⟩
      rw [hnone _ hname] at hrange
      cases hrange
  · have hperm := qsort.perm _ _ hcons
    have hplace : ∀ key p, (qsort.sort (indexesHandler d) o.enumerable)[p]? = some key →
        inRange d r.lower r.upper key = true → key = decimal p ∧ p < r.upper := by
      intro key p hp hrange
      have hmem : key ∈ o.enumerable := hperm.mem_iff.mp (List.mem_of_getElem? hp)
      obtain ⟨i, hi, rfl, hcount, hties⟩ := hkeys key hmem hrange
      have hrank := countP_less_eq (hcons.of_perm hperm) (hperm.nodup_iff.mpr o.enumerable_nodup)
        (qsort.sorted _ _ hcons) hp fun b hb => hties b (hperm.mem_iff.mp hb)
      rw [hperm.countP_eq] at hrank
      obtain rfl : i = p := hcount.trans hrank
      exact ⟨rfl, hi⟩
    constructor
    · rintro ⟨⟨hp, hrange⟩, hname⟩
      rw [getElem?_objectIndexes hcons (inRange_iff.mp hrange).1] at hp
      obtain ⟨rfl, hupper⟩ := hplace key p hp hrange
      exact ⟨⟨rfl, ((inRange_decimal (by omega)).mp hrange).1, hupper⟩, hname⟩
    · rintro ⟨⟨rfl, hlower, hupper⟩, hname⟩
      have hrange := (@inRange_decimal d _ r.upper p (by omega)).mpr ⟨hlower, by omega⟩
      refine ⟨⟨?_, hrange⟩, hname⟩
      rw [getElem?_objectIndexes hcons (inRange_iff.mp hrange).1]
      have hmem : decimal p ∈ o.enumerable :=
        (Shape.mem_names.mp hname).resolve_right (hhidden p hlower hupper)
      obtain ⟨j, hj⟩ := List.getElem?_of_mem (hperm.mem_iff.mpr hmem)
      obtain ⟨hdec, hju⟩ := hplace _ j hj hrange
      obtain rfl := decimal_injective d.toStrtod (by omega) (by omega) hdec
      exact hj

/-- What `njs_array_iterator` visits of one key in the range. -/
theorem forwardKeys_singleton {key : Key} (hrange : inRange d lower upper key = true) :
    forwardKeys d lower upper [key] = [(key, 0)] := by
  unfold forwardKeys
  simp [(inRange_iff.mp hrange).2]

/-- Nothing else gives the right calls for every `qsort`. -/
theorem forwardSorted_of_filter_eq
    (h : ∀ qsort, (forwardKeys d r.lower r.upper (objectIndexes d qsort o.enumerable)).filter
      o.present = (forwardIndices r.lower r.upper).filter o.present)
    (hsome : ∃ key ∈ o.names, inRange d r.lower r.upper key = true) : ForwardSorted d o r := by
  have hlt := r.lt
  have hcons : Consistent (indexesHandler d) o.enumerable :=
    consistent_of_calls (fun key _ hrange => ⟨0, forwardKeys_singleton hrange⟩) rfl h hsome
  -- A sorted list of the keys has every key in the range at the place that the key names.
  have hplace : ∀ s : List Key, s.Perm o.enumerable → s.Pairwise (Before (indexesHandler d)) →
      ∀ key p, s[p]? = some key → inRange d r.lower r.upper key = true →
        key = decimal p ∧ r.lower ≤ p ∧ p < r.upper := by
    intro s hperm hsorted key p hp hrange
    obtain ⟨qsort, hsort⟩ := exists_qsort (l := o.enumerable)
      (s := s) fun _ => ⟨hperm, hsorted⟩
    have hmem : key ∈ o.enumerable := hperm.mem_iff.mp (List.mem_of_getElem? hp)
    have hcall : (key, p) ∈ (forwardIndices r.lower r.upper).filter o.present := by
      rw [← h qsort, List.mem_filter, mem_forwardKeys,
        getElem?_objectIndexes hcons (inRange_iff.mp hrange).1, hsort]
      exact ⟨⟨hp, hrange⟩, Shape.present_iff.mpr (Shape.mem_names_of_enumerable hmem)⟩
    exact mem_forwardIndices.mp (List.mem_filter.mp hcall).1
  obtain ⟨s, hperm, hsorted⟩ := exists_sorted hcons
  have hnodup : s.Nodup := hperm.nodup_iff.mpr o.enumerable_nodup
  refine ⟨hcons, fun i hlower hupper hhidden => ?_, fun key hmem hrange => ?_⟩
  · -- An index that is not enumerable is visited by the loop only.
    obtain ⟨qsort, hsort⟩ := exists_qsort (l := o.enumerable)
      (s := s) fun _ => ⟨hperm, hsorted⟩
    have hcall : (decimal i, i) ∈ (forwardIndices r.lower r.upper).filter o.present := by
      rw [List.mem_filter, mem_forwardIndices]
      exact ⟨⟨rfl, hlower, hupper⟩, Shape.present_iff.mpr (Shape.mem_names.mpr (Or.inr hhidden))⟩
    rw [← h qsort, List.mem_filter, mem_forwardKeys] at hcall
    have hvisible := ((mem_objectIndexes hcons).mp (List.mem_of_getElem? hcall.1.1)).1
    exact o.not_hidden hvisible hhidden
  · obtain ⟨p, hp⟩ := List.getElem?_of_mem (hperm.mem_iff.mpr hmem)
    obtain ⟨hkey, -, hupper⟩ := hplace s hperm hsorted key p hp hrange
    have hties : ∀ k ∈ o.enumerable, k ≠ key → indexesHandler d k key ≠ some 0 := by
      intro k hk hne htie
      -- With the two keys exchanged the list is still sorted.
      obtain ⟨p', hp'⟩ := List.getElem?_of_mem (hperm.mem_iff.mpr hk)
      have hconsS := hcons.of_perm hperm
      have hks : k ∈ s := hperm.mem_iff.mpr hk
      have hkeys : key ∈ s := hperm.mem_iff.mpr hmem
      have hswapped := pairwise_map_swap hconsS hks hkeys htie hsorted
      have hpermSwap : (s.map (Equiv.swap k key)).Perm o.enumerable := by
        refine List.Perm.trans ?_ hperm
        refine (List.perm_ext_iff_of_nodup (hnodup.map (Equiv.swap k key).injective)
          hnodup).mpr fun x => ?_
        rw [List.mem_map]
        constructor
        · rintro ⟨y, hy, rfl⟩
          exact swap_mem hks hkeys hy
        · intro hx
          exact ⟨Equiv.swap k key x, swap_mem hks hkeys hx, Equiv.swap_apply_self k key x⟩
      have hget : (s.map (Equiv.swap k key))[p']? = some key := by
        rw [List.getElem?_map, hp', Option.map_some, Equiv.swap_apply_left]
      obtain ⟨hkey', -, hupper'⟩ := hplace _ hpermSwap hswapped key p' hget hrange
      have hsame := decimal_injective d.toStrtod (by omega) (by omega) (hkey.symm.trans hkey')
      rw [← hsame, hp] at hp'
      exact hne (Option.some.inj hp').symm
    refine ⟨p, hupper, hkey, ?_, hties⟩
    have hrank := countP_less_eq (hcons.of_perm hperm) hnodup hsorted hp fun b hb =>
      hties b (hperm.mem_iff.mp hb)
    rw [hperm.countP_eq] at hrank
    exact hrank.symm

theorem forwardAgrees_iff : ForwardAgrees d o r ↔ ForwardFits d o r := by
  have hle := r.le
  have hlt := r.lt
  have hlength : unsigned 32 ((r.upper : ℤ) - r.lower) = r.upper - r.lower := by
    rw [show (r.upper : ℤ) - r.lower = ((r.upper - r.lower : ℕ) : ℤ) by omega]
    exact unsigned_natCast (by omega)
  unfold ForwardAgrees ForwardFits iterateObject
  rw [hlength]
  by_cases hlarge : largeObjectLength < r.upper - r.lower
  · simp only [if_pos hlarge, not_le.mpr hlarge, false_or]
    constructor
    · intro h
      by_cases hsome : ∃ key ∈ o.names, inRange d r.lower r.upper key = true
      · exact Or.inr (forwardSorted_of_filter_eq (fun qsort => visit_enumerable_eq_iff.mp (h qsort))
          hsome)
      · exact Or.inl fun key hkey => by simpa using fun hrange => hsome ⟨key, hkey, hrange⟩
    · intro h qsort
      exact visit_enumerable_eq_iff.mpr (forward_filter_eq h)
  · simp only [if_neg hlarge, not_lt.mp hlarge, true_or, implies_true]

end Njs.Array
