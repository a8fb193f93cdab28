import Njs.Array.Indexes

/-!
# Sparse iteration

On a long range `njs_array_iterator` visits the sorted keys of an object, and passes the
place of a key in their list to the handler where the handler expects its index.
`njs_array_reverse_iterator` passes the index. Both agree with the visit of one index after
the other on the objects that are described here, and on no others.
-/

namespace Njs.Array

theorem lawfulBEq_key : LawfulBEq Key :=
  inferInstance

attribute [local instance] lawfulBEq_key

/-- The own properties of an object in the order in which they are enumerated, by name, and
whether they are enumerable. -/
structure Shape where
  keys : List (Key × Bool)
  nodup : (keys.map Prod.fst).Nodup

/-- The names of the own properties. -/
def Shape.names (o : Shape) : List Key := o.keys.map Prod.fst

/-- `njs_value_own_enumerate` for keys. -/
def Shape.enumerable (o : Shape) : List Key := (o.keys.filter Prod.snd).map Prod.fst

/-- `njs_value_property`, where the own properties are data properties. -/
def Shape.property {α : Type} (o : Shape) (v : Key → α) (key : Key) : Option α :=
  if key ∈ o.names then some (v key) else none

/-- A range of indices. -/
structure Range where
  lower : ℕ
  upper : ℕ
  le : lower ≤ upper
  lt : upper < 2 ^ 32

/-- The handler does nothing for an entry that is not there. -/
def SkipsMissing {m : Type → Type} [Monad m] {α σ : Type}
    (handler : σ → Option α → ℕ → m (σ × Bool)) : Prop :=
  ∀ data i, handler data none i = pure (data, false)

/-- On the object and the range, `njs_array_iterator` makes the calls of the loop over the
indices, whatever `qsort` does, for any values of the properties and any handler. -/
def ForwardAgrees (d : Doubles) (o : Shape) (r : Range) : Prop :=
  ∀ (qsort : Qsort Key) (α σ : Type) (v : Key → α) (m : Type → Type) [Monad m] [LawfulMonad m]
    (handler : σ → Option α → ℕ → m (σ × Bool)) (data : σ), SkipsMissing handler →
    iterateObject d qsort (fun key => pure (o.property v key)) (pure o.enumerable) handler
        r.lower r.upper data =
      visit (fun key => pure (o.property v key)) handler data (forwardIndices r.lower r.upper)

/-- On the object and the range, `njs_array_reverse_iterator` makes the calls of the loop
over the indices, from the last index of the range on. It is not called for an empty range. -/
def ReverseAgrees (d : Doubles) (o : Shape) (r : Range) : Prop :=
  r.lower < r.upper →
  ∀ (qsort : Qsort Key) (α σ : Type) (v : Key → α) (m : Type → Type) [Monad m] [LawfulMonad m]
    (handler : σ → Option α → ℕ → m (σ × Bool)) (data : σ), SkipsMissing handler →
    reverseIterateObject d qsort (fun key => pure (o.property v key)) (pure o.enumerable) handler
        r.lower (r.upper - 1) data =
      visit (fun key => pure (o.property v key)) handler data
        (reverseIndices r.lower (r.upper - 1))

/-- The name reads as a number from `lower` to `upper`, both included. -/
def inRange (d : Doubles) (lower upper : ℕ) (key : Key) : Bool :=
  match d.stringToIndex key with
  | .finite q => lower ≤ q && q ≤ upper
  | _ => false

/-- Where the keys are sorted, the forward iteration passes the right calls on if the
comparison is one that `qsort` may be given, every index in the range that is an own name is
enumerable, and the names that read as a number in the range are canonical, below the end of
the range, and at the place in the sorted list that they name. -/
structure ForwardSorted (d : Doubles) (o : Shape) (r : Range) : Prop where
  consistent : Consistent (indexesHandler d) o.enumerable
  enumerable : ∀ i, r.lower ≤ i → i < r.upper → (decimal i, false) ∉ o.keys
  place : ∀ key ∈ o.enumerable, inRange d r.lower r.upper key = true → ∃ i < r.upper,
    key = decimal i ∧ i = o.enumerable.countP (fun k => less (indexesHandler d) k key) ∧
    ∀ k ∈ o.enumerable, k ≠ key → indexesHandler d k key ≠ some 0

/-- The objects on which the forward iteration is right. -/
def ForwardFits (d : Doubles) (o : Shape) (r : Range) : Prop :=
  r.upper - r.lower ≤ largeObjectLength ∨
    (∀ key ∈ o.names, inRange d r.lower r.upper key = false) ∨ ForwardSorted d o r

/-- Where the keys are sorted, the reverse iteration passes the right calls on if the
comparison is one that `qsort` may be given, every index in the range that is an own name is
enumerable, and the names that read as a number in the range are canonical names of indices
below its end. -/
structure ReverseSorted (d : Doubles) (o : Shape) (r : Range) : Prop where
  consistent : Consistent (indexesHandler d) o.enumerable
  enumerable : ∀ i, r.lower ≤ i → i < r.upper → (decimal i, false) ∉ o.keys
  canonical : ∀ key ∈ o.enumerable, inRange d r.lower (r.upper - 1) key = true →
    ∃ i < r.upper, key = decimal i

/-- The objects on which the reverse iteration is right. -/
def ReverseFits (d : Doubles) (o : Shape) (r : Range) : Prop :=
  r.upper - 1 - r.lower ≤ largeObjectLength ∨
    (∀ key ∈ o.names, inRange d r.lower (r.upper - 1) key = false) ∨ ReverseSorted d o r

variable {d : Doubles} {o : Shape} {qsort : Qsort Key} {lower upper : ℕ}

/-! ## Visits -/

section Visits

variable {m : Type → Type} [Monad m] [LawfulMonad m] {α σ : Type}
  {handler : σ → Option α → ℕ → m (σ × Bool)}

/-- Entries that are not there may be left out. -/
theorem visit_filter (property : Key → Option α) (hskip : SkipsMissing handler) (data : σ)
    (l : List (Key × ℕ)) :
    visit (fun key => pure (property key)) handler data
        (l.filter fun p => (property p.1).isSome) =
      visit (fun key => pure (property key)) handler data l := by
  induction l generalizing data with
  | nil => rfl
  | cons p l ih =>
    obtain ⟨key, i⟩ := p
    rcases hp : property key with - | v
    · rw [List.filter_cons_of_neg (by simp [hp]), ih]
      simp only [visit, pure_bind, hp, hskip data i, Bool.false_eq_true, ↓reduceIte]
    · rw [List.filter_cons_of_pos (by simp [hp])]
      simp only [visit, ih]

end Visits

/-- The handler that writes its calls down. -/
def record {α : Type} (calls : List (α × ℕ)) (entry : Option α) (i : ℕ) :
    Id (List (α × ℕ) × Bool) :=
  match entry with
  | some v => (calls ++ [(v, i)], false)
  | none => (calls, false)

theorem record_skipsMissing {α : Type} : SkipsMissing (m := Id) (record (α := α)) :=
  fun _ _ => rfl

/-- What is written down are the names that exist, if every property has its name for its
value. -/
theorem visit_record (names : List Key) (calls : List (Key × ℕ)) (l : List (Key × ℕ)) :
    visit (m := Id) (fun key => if key ∈ names then some key else none) record calls l =
      (calls ++ l.filter fun p => p.1 ∈ names, false) := by
  induction l generalizing calls with
  | nil => simp [visit]; rfl
  | cons p l ih =>
    obtain ⟨key, i⟩ := p
    by_cases hkey : key ∈ names
    · rw [List.filter_cons_of_pos (by simpa using hkey)]
      have hstep := ih (calls ++ [(key, i)])
      rw [List.append_assoc, List.singleton_append] at hstep
      rw [← hstep]
      conv_lhs => unfold visit
      rw [if_pos hkey]
      rfl
    · rw [List.filter_cons_of_neg (by simpa using hkey), ← ih calls]
      conv_lhs => unfold visit
      rw [if_neg hkey]
      rfl

/-- The name is one of an own property. -/
def Shape.present (o : Shape) (p : Key × ℕ) : Bool := p.1 ∈ o.names

/-- Two lists of keys give the same calls, for all values and handlers, if and only if the
names that exist are the same in both. -/
theorem visit_eq_iff {l l' : List (Key × ℕ)} :
    (∀ (α σ : Type) (v : Key → α) (m : Type → Type) [Monad m] [LawfulMonad m]
      (handler : σ → Option α → ℕ → m (σ × Bool)) (data : σ), SkipsMissing handler →
      visit (fun key => pure (o.property v key)) handler data l =
        visit (fun key => pure (o.property v key)) handler data l') ↔
      l.filter o.present = l'.filter o.present := by
  constructor
  · intro h
    have hrecord := h Key (List (Key × ℕ)) id Id record [] record_skipsMissing
    have hproperty : (fun key => (pure (o.property id key) : Id (Option Key))) =
        fun key => if key ∈ o.names then some key else none := rfl
    rw [hproperty, visit_record, visit_record] at hrecord
    exact (Prod.mk.inj hrecord).1
  · intro h α σ v m _ _ handler data hskip
    have hpresent : ∀ l : List (Key × ℕ),
        l.filter (fun p => (o.property v p.1).isSome) = l.filter o.present := by
      intro l
      refine List.filter_congr fun p _ => ?_
      unfold Shape.property Shape.present
      split_ifs with hp
      · simp [hp]
      · simp [hp]
    rw [← visit_filter _ hskip data l, ← visit_filter _ hskip data l', hpresent, hpresent, h]

/-! ## The keys in a range -/

theorem inRange_decimal {i : ℕ} (h : i < 2 ^ 53) :
    inRange d lower upper (decimal i) = true ↔ lower ≤ i ∧ i ≤ upper := by
  unfold inRange
  rw [d.stringToIndex_decimal h]
  simp

theorem inRange_iff {key : Key} : inRange d lower upper key = true ↔
    d.stringToIndex key ≠ .nan ∧ outside lower upper (d.stringToIndex key) = false := by
  unfold inRange outside
  split <;> rename_i h
  · rw [h]
    simp
  · rcases hkey : d.stringToIndex key with - | - | - | q
    · simp
    · simp
    · simp
    · exact absurd hkey (h q)

theorem Shape.mem_enumerable {key : Key} : key ∈ o.enumerable ↔ (key, true) ∈ o.keys := by
  unfold enumerable
  simp

theorem Shape.mem_names_of_enumerable {key : Key} (h : key ∈ o.enumerable) : key ∈ o.names :=
  List.mem_map_of_mem (f := Prod.fst) (Shape.mem_enumerable.mp h)

theorem Shape.mem_names {key : Key} :
    key ∈ o.names ↔ key ∈ o.enumerable ∨ (key, false) ∈ o.keys := by
  rw [Shape.mem_enumerable]
  unfold names
  constructor
  · intro h
    obtain ⟨⟨key', flag⟩, hmem, rfl⟩ := List.mem_map.mp h
    rcases flag with - | -
    · exact Or.inr hmem
    · exact Or.inl hmem
  · rintro (h | h)
    · exact List.mem_map_of_mem (f := Prod.fst) h
    · exact List.mem_map_of_mem (f := Prod.fst) h

theorem Shape.enumerable_nodup (o : Shape) : o.enumerable.Nodup :=
  o.nodup.sublist (List.filter_sublist.map Prod.fst)

/-- Names that are numbers come before those that are not. -/
theorem ne_nan_of_before {a b : Key} (h : Before (indexesHandler d) a b)
    (hb : d.stringToIndex b ≠ .nan) : d.stringToIndex a ≠ .nan := by
  intro ha
  obtain ⟨x, hx, hle⟩ := h
  unfold indexesHandler at hx
  rw [ha] at hx
  split at hx
  · exact hb ‹_›
  · obtain rfl := Option.some.inj hx
    omega
  · exact hb ‹_›
  · exact absurd rfl ‹_›

/-- The sorted keys with a number are where they are in the list of all keys. -/
theorem getElem?_objectIndexes {keys : List Key} (h : Consistent (indexesHandler d) keys)
    {p : ℕ} {key : Key} (hkey : d.stringToIndex key ≠ .nan) :
    (objectIndexes d qsort keys)[p]? = some key ↔
      (qsort.sort (indexesHandler d) keys)[p]? = some key := by
  have hsorted := qsort.sorted _ _ h
  set s := qsort.sort (indexesHandler d) keys with hs
  unfold objectIndexes
  rw [← hs]
  constructor
  · intro hp
    obtain ⟨rest, hrest⟩ := List.takeWhile_prefix (l := s) fun key => d.stringToIndex key ≠ .nan
    rw [← hrest]
    exact List.getElem?_append_left (List.getElem?_eq_some_iff.mp hp).1 ▸ hp
  · intro hp
    obtain ⟨hlt, hget⟩ := List.getElem?_eq_some_iff.mp hp
    have hsplit : s = s.take p ++ key :: s.drop (p + 1) := by
      rw [← hget, List.getElem_cons_drop, List.take_append_drop]
    have hall : ∀ a ∈ s.take p ++ [key], d.stringToIndex a ≠ .nan := by
      rw [hsplit] at hsorted
      intro a ha
      rcases List.mem_append.mp ha with ha | ha
      · exact ne_nan_of_before ((List.pairwise_append.mp hsorted).2.2 a ha key
          List.mem_cons_self) hkey
      · rw [List.mem_singleton.mp ha]
        exact hkey
    have hlength : (s.take p).length = p := by
      rw [List.length_take]
      omega
    rw [show s = s.take p ++ [key] ++ s.drop (p + 1) by simpa using hsplit,
      List.takeWhile_append_of_pos (by simpa using hall), List.append_assoc,
      List.getElem?_append_right (by omega), hlength]
    simp

theorem mem_forwardKeys {keys : List Key} {key : Key} {p : ℕ} :
    (key, p) ∈ forwardKeys d lower upper (objectIndexes d qsort keys) ↔
      (objectIndexes d qsort keys)[p]? = some key ∧ inRange d lower upper key = true := by
  unfold forwardKeys
  rw [List.mem_filter, List.mk_mem_zipIdx_iff_getElem?, inRange_iff]
  constructor
  · rintro ⟨hp, hout⟩
    have hmem : key ∈ objectIndexes d qsort keys := List.mem_of_getElem? hp
    exact ⟨hp, by simpa using List.mem_takeWhile_imp hmem, by simpa using hout⟩
  · rintro ⟨hp, -, hout⟩
    exact ⟨hp, by simpa using hout⟩

theorem mem_forwardIndices {key : Key} {p : ℕ} :
    (key, p) ∈ forwardIndices lower upper ↔ key = decimal p ∧ lower ≤ p ∧ p < upper := by
  unfold forwardIndices
  simp only [List.mem_map, List.mem_range'_1, Prod.mk.injEq]
  constructor
  · rintro ⟨i, hi, rfl, rfl⟩
    exact ⟨rfl, by omega, by omega⟩
  · rintro ⟨rfl, hlower, hupper⟩
    exact ⟨p, by omega, rfl, rfl⟩

/-- Lists of calls in the order of the indices are equal if they have the same members. -/
theorem eq_of_ascending {l l' : List (Key × ℕ)} (hl : l.Pairwise fun p q => p.2 < q.2)
    (hl' : l'.Pairwise fun p q => p.2 < q.2) (hmem : ∀ p, p ∈ l ↔ p ∈ l') : l = l' := by
  have hnodup : ∀ k : List (Key × ℕ), (k.Pairwise fun p q => p.2 < q.2) → k.Nodup :=
    fun k hk => hk.imp fun hpq heq => by
      rw [heq] at hpq
      exact Nat.lt_irrefl _ hpq
  refine List.Perm.eq_of_pairwise (fun a b _ _ hab hba => ?_) hl hl'
    ((List.perm_ext_iff_of_nodup (hnodup l hl) (hnodup l' hl')).mpr hmem)
  exact absurd hab (by omega)

theorem forwardKeys_ascending (indexes : List Key) :
    (forwardKeys d lower upper indexes).Pairwise fun p q => p.2 < q.2 := by
  refine List.Pairwise.filter _ ?_
  rw [← List.pairwise_map (f := Prod.snd) (R := (· < ·)), List.zipIdx_map_snd]
  exact List.pairwise_lt_range'

theorem forwardIndices_ascending (lower upper : ℕ) :
    (forwardIndices lower upper).Pairwise fun p q => p.2 < q.2 := by
  unfold forwardIndices
  rw [List.pairwise_map]
  exact List.pairwise_lt_range'

end Njs.Array
