import Njs.Strtod
import Mathlib.Data.List.Sort
import Mathlib.Logic.Equiv.Basic

/-!
# Iteration over the properties of an object

`njs_array_iterator` and `njs_array_reverse_iterator` visit the elements of an object that
is not a plain array one index after the other, or, if the range is long, by way of the list
of the object's keys: they are sorted by `qsort`, cut at the first that is no number, and
those outside the range are left out.
-/

namespace Njs.Array

/-- The bytes of a property name. -/
abbrev Key := List UInt8

/-- The arithmetic of doubles that the comparison of keys uses. -/
structure Doubles extends Strtod where
  /-- The difference of two finite doubles. -/
  subtract : ℚ → ℚ → Number
  subtract_exact : ∀ m n : ℕ, m < 2 ^ 53 → n < 2 ^ 53 → subtract m n = .finite ((m : ℚ) - n)

/-- Doubles without rounding. -/
def Doubles.unrounded : Doubles where
  toStrtod := .unrounded
  subtract p q := .finite (p - q)
  subtract_exact _ _ _ _ := rfl

/-- The difference of two doubles. -/
def Doubles.difference (d : Doubles) : Number → Number → Number
  | .nan, _ => .nan
  | _, .nan => .nan
  | .finite p, .finite q => d.subtract p q
  | .posInfinity, .posInfinity => .nan
  | .negInfinity, .negInfinity => .nan
  | .posInfinity, _ => .posInfinity
  | .negInfinity, _ => .negInfinity
  | _, .posInfinity => .negInfinity
  | _, .negInfinity => .posInfinity

/-- `(int) num`, if the integer fits. -/
def castInt : Number → Option ℤ
  | .finite q => if -2 ^ 31 ≤ truncate q ∧ truncate q < 2 ^ 31 then some (truncate q) else none
  | _ => none

/-- `strncmp` up to the length of the shorter name. -/
def strncmp : Key → Key → ℤ
  | a :: as, b :: bs =>
    if a ≠ b then (a.toNat : ℤ) - b.toNat else if a = 0 then 0 else strncmp as bs
  | _, _ => 0

/-- `njs_object_indexes_handler`. The conversion of a difference that does not fit an `int`
is not defined. -/
def indexesHandler (d : Doubles) (first second : Key) : Option ℤ :=
  match d.stringToIndex first, d.stringToIndex second with
  | .nan, .nan => some (strncmp first second)
  | .nan, _ => some 1
  | _, .nan => some (-1)
  | num1, num2 => castInt (d.difference num1 num2)

variable {κ : Type}

/-- The comparison puts the first value at or before the second. -/
def Before (compare : κ → κ → Option ℤ) (a b : κ) : Prop := ∃ x, compare a b = some x ∧ x ≤ 0

/-- The comparison is one that C's `qsort` may be given for these values. -/
structure Consistent (compare : κ → κ → Option ℤ) (l : List κ) : Prop where
  opposite : ∀ a ∈ l, ∀ b ∈ l, ∃ x y, compare a b = some x ∧ compare b a = some y ∧
    x.sign = -y.sign
  trans : ∀ a ∈ l, ∀ b ∈ l, ∀ c ∈ l, Before compare a b → Before compare b c →
    Before compare a c

/-- `qsort`. What it makes of values for which the comparison is not consistent is left
open, as in C. -/
structure Qsort (κ : Type) where
  sort : (κ → κ → Option ℤ) → List κ → List κ
  perm : ∀ compare l, Consistent compare l → (sort compare l).Perm l
  sorted : ∀ compare l, Consistent compare l → (sort compare l).Pairwise (Before compare)

/-- `njs_object_indexes`, from the list of the enumerable keys of the object. -/
def objectIndexes (d : Doubles) (qsort : Qsort Key) (keys : List Key) : List Key :=
  (qsort.sort (indexesHandler d) keys).takeWhile fun key => d.stringToIndex key ≠ .nan

/-- `idx < lower || idx > upper`. -/
def outside (lower upper : ℕ) : Number → Bool
  | .finite q => q < lower || upper < q
  | .posInfinity => true
  | .negInfinity => true
  | .nan => false

/-- `NJS_ARRAY_LARGE_OBJECT_LENGTH`. -/
def largeObjectLength : ℕ := 4096

/-- The keys that `njs_array_iterator` visits in a list of indexes, with the number that it
passes to the handler: the position of the key in the list. -/
def forwardKeys (d : Doubles) (lower upper : ℕ) (indexes : List Key) : List (Key × ℕ) :=
  indexes.zipIdx.filter fun p => !outside lower upper (d.stringToIndex p.1)

/-- The keys that `njs_array_reverse_iterator` visits in a list of indexes, with the number
that it passes to the handler: the number that the key stands for. -/
def reverseKeys (d : Doubles) (lower upper : ℕ) (indexes : List Key) : List (Key × ℕ) :=
  (indexes.reverse.filter fun key => !outside lower upper (d.stringToIndex key)).map
    fun key => (key, (d.stringToIndex key).castUInt32)

/-- The indices from `lower` to `upper`, in order. -/
def forwardIndices (lower upper : ℕ) : List (Key × ℕ) :=
  (List.range' lower (upper - lower)).map fun i => (decimal i, i)

/-- The indices from `upper` down to `lower`, both included. The loop begins at
`upper + 1`, a 32-bit number. -/
def reverseIndices (lower upper : ℕ) : List (Key × ℕ) :=
  (List.range' lower (unsigned 32 ((upper : ℤ) + 1) - lower)).reverse.map fun i =>
    (decimal i, i)

section Iteration

variable {m : Type → Type} [Monad m] {α σ : Type}

/-- The calls of `njs_array_object_handler`, until one of them ends the iteration. A handler
has its own data and says whether to stop. -/
def visit (property : Key → m (Option α)) (handler : σ → Option α → ℕ → m (σ × Bool)) :
    σ → List (Key × ℕ) → m (σ × Bool)
  | data, [] => pure (data, false)
  | data, (key, i) :: rest => do
    let entry ← property key
    let (data, stop) ← handler data entry i
    if stop then
      return (data, true)
    else
      visit property handler data rest

/-- `njs_array_iterator` from `process_object` on, for indices from `lower` to `upper`. -/
def iterateObject (d : Doubles) (qsort : Qsort Key) (property : Key → m (Option α))
    (enumerate : m (List Key)) (handler : σ → Option α → ℕ → m (σ × Bool)) (lower upper : ℕ)
    (data : σ) : m (σ × Bool) := do
  if largeObjectLength < unsigned 32 ((upper : ℤ) - lower) then
    let keys ← enumerate
    visit property handler data (forwardKeys d lower upper (objectIndexes d qsort keys))
  else
    visit property handler data (forwardIndices lower upper)

/-- `njs_array_reverse_iterator` from `process_object` on, for indices from `upper` down to
`lower`. -/
def reverseIterateObject (d : Doubles) (qsort : Qsort Key) (property : Key → m (Option α))
    (enumerate : m (List Key)) (handler : σ → Option α → ℕ → m (σ × Bool)) (lower upper : ℕ)
    (data : σ) : m (σ × Bool) := do
  if largeObjectLength < unsigned 32 ((upper : ℤ) - lower) then
    let keys ← enumerate
    visit property handler data (reverseKeys d lower upper (objectIndexes d qsort keys))
  else
    visit property handler data (reverseIndices lower upper)

end Iteration

end Njs.Array

/-!
## Sorting with a comparison function

Facts about lists in an order that a consistent comparison allows: the place of a value that
no other is equal to is the number of the values below it, and values that compare equal may
change places.
-/

namespace Njs.Array

variable {κ : Type} {compare : κ → κ → Option ℤ} {l s : List κ} {a b : κ}

/-- The comparison puts the first value before the second. -/
def less (compare : κ → κ → Option ℤ) (a b : κ) : Bool :=
  match compare a b with
  | some x => x < 0
  | none => false

theorem Consistent.compare_self (h : Consistent compare l) (ha : a ∈ l) :
    compare a a = some 0 := by
  obtain ⟨x, y, hx, hy, hsign⟩ := h.opposite a ha a ha
  obtain rfl : x = y := Option.some.inj (hx.symm.trans hy)
  have hzero : x.sign = 0 := by omega
  rw [hx, Int.sign_eq_zero_iff_zero.mp hzero]

theorem Consistent.before_or (h : Consistent compare l) (ha : a ∈ l) (hb : b ∈ l) :
    Before compare a b ∨ Before compare b a := by
  obtain ⟨x, y, hx, hy, hsign⟩ := h.opposite a ha b hb
  rcases le_or_gt x 0 with hle | hlt
  · exact Or.inl ⟨x, hx, hle⟩
  · refine Or.inr ⟨y, hy, ?_⟩
    rw [Int.sign_eq_one_of_pos hlt] at hsign
    by_contra hpos
    rw [Int.sign_eq_one_of_pos (by omega)] at hsign
    omega

/-- A value is not below one that it comes after. -/
theorem Consistent.not_less_of_before (h : Consistent compare l) (ha : a ∈ l) (hb : b ∈ l)
    (hbefore : Before compare a b) : less compare b a = false := by
  obtain ⟨x, y, hx, hy, hsign⟩ := h.opposite a ha b hb
  obtain ⟨x', hx', hle⟩ := hbefore
  obtain rfl : x = x' := Option.some.inj (hx.symm.trans hx')
  unfold less
  rw [hy]
  simp only [decide_eq_false_iff_not, not_lt]
  by_contra hneg
  have hy0 : y.sign = -1 := Int.sign_eq_neg_one_of_neg (by omega)
  have hpos : 0 < x := Int.sign_eq_one_iff_pos.mp (by omega)
  omega

theorem less_of_before (hbefore : Before compare a b) (hne : compare a b ≠ some 0) :
    less compare a b = true := by
  obtain ⟨x, hx, hle⟩ := hbefore
  unfold less
  rw [hx]
  simp only [decide_eq_true_eq]
  rcases lt_or_eq_of_le hle with hlt | rfl
  · exact hlt
  · exact absurd hx hne

theorem Consistent.of_perm (h : Consistent compare l) (hperm : s.Perm l) :
    Consistent compare s where
  opposite a ha b hb := h.opposite a (hperm.mem_iff.mp ha) b (hperm.mem_iff.mp hb)
  trans a ha b hb c hc := h.trans a (hperm.mem_iff.mp ha) b (hperm.mem_iff.mp hb) c
    (hperm.mem_iff.mp hc)

/-- Values that are equal to each other in both directions. -/
theorem Consistent.tie_symm (h : Consistent compare l) (ha : a ∈ l) (hb : b ∈ l)
    (htie : compare a b = some 0) : compare b a = some 0 := by
  obtain ⟨x, y, hx, hy, hsign⟩ := h.opposite a ha b hb
  obtain rfl : x = 0 := Option.some.inj (hx.symm.trans htie)
  have hzero : y.sign = 0 := by
    rw [Int.sign_zero] at hsign
    omega
  rw [hy, Int.sign_eq_zero_iff_zero.mp hzero]

/-- In a sorted list, the place of a value that no other is equal to is the number of the
values below it. -/
theorem countP_less_eq {p : ℕ} (h : Consistent compare s) (hnodup : s.Nodup)
    (hsorted : s.Pairwise (Before compare)) (hp : s[p]? = some a)
    (hties : ∀ b ∈ s, b ≠ a → compare b a ≠ some 0) :
    s.countP (fun b => less compare b a) = p := by
  obtain ⟨hlt, hget⟩ := List.getElem?_eq_some_iff.mp hp
  have hsplit : s = s.take p ++ a :: s.drop (p + 1) := by
    rw [← hget, List.getElem_cons_drop, List.take_append_drop]
  have hmem : a ∈ s := List.mem_of_getElem? hp
  rw [hsplit] at hsorted hnodup
  obtain ⟨-, hright, hcross⟩ := List.pairwise_append.mp hsorted
  obtain ⟨-, hnodup', hdisj⟩ := List.nodup_append.mp hnodup
  have hbefore : ∀ b ∈ s.take p, less compare b a = true := by
    intro b hb
    refine less_of_before (hcross b hb a List.mem_cons_self) (hties b (List.mem_of_mem_take hb) ?_)
    exact hdisj b hb a List.mem_cons_self
  have hself : less compare a a = false := by
    unfold less
    rw [h.compare_self hmem]
    rfl
  have hafter : ∀ b ∈ s.drop (p + 1), less compare b a = false := by
    intro b hb
    exact h.not_less_of_before hmem (List.mem_of_mem_drop hb)
      ((List.pairwise_cons.mp hright).1 b hb)
  have hcount : (s.take p).countP (fun b => less compare b a) = (s.take p).length :=
    List.countP_eq_length.mpr hbefore
  have hcount' : (s.drop (p + 1)).countP (fun b => less compare b a) = 0 :=
    List.countP_eq_zero.mpr fun b hb => by simp [hafter b hb]
  rw [hsplit, List.countP_append, List.countP_cons, hcount, hcount', hself,
    List.length_take]
  simp only [Bool.false_eq_true, ↓reduceIte]
  omega

/-- Two values that compare equal may change places in a sorted list. -/
theorem pairwise_map_swap [DecidableEq κ] (h : Consistent compare s) (ha : a ∈ s) (hb : b ∈ s)
    (htie : compare a b = some 0) (hsorted : s.Pairwise (Before compare)) :
    (s.map (Equiv.swap a b)).Pairwise (Before compare) := by
  have hswap : ∀ x ∈ s, Equiv.swap a b x ∈ s ∧ Before compare x (Equiv.swap a b x) ∧
      Before compare (Equiv.swap a b x) x := by
    intro x hx
    by_cases hxa : x = a
    · subst hxa
      rw [Equiv.swap_apply_left]
      exact ⟨hb, ⟨0, htie, le_rfl⟩, ⟨0, h.tie_symm ha hb htie, le_rfl⟩⟩
    · by_cases hxb : x = b
      · subst hxb
        rw [Equiv.swap_apply_right]
        exact ⟨ha, ⟨0, h.tie_symm ha hb htie, le_rfl⟩, ⟨0, htie, le_rfl⟩⟩
      · rw [Equiv.swap_apply_of_ne_of_ne hxa hxb]
        exact ⟨hx, ⟨0, h.compare_self hx, le_rfl⟩, ⟨0, h.compare_self hx, le_rfl⟩⟩
  rw [List.pairwise_map]
  refine hsorted.imp_of_mem fun {x y} hx hy hxy => ?_
  obtain ⟨hx', -, hxx⟩ := hswap x hx
  obtain ⟨hy', hyy, -⟩ := hswap y hy
  exact h.trans _ hx' x hx _ hy' hxx (h.trans x hx y hy _ hy' hxy hyy)

instance (compare : κ → κ → Option ℤ) (a b : κ) : Decidable (Before compare a b) :=
  match h : compare a b with
  | some x => decidable_of_iff (x ≤ 0) (by simp [Before, h])
  | none => isFalse (by simp [Before, h])

/-- A `qsort` that sorts by insertion. -/
def Qsort.insertion (κ : Type) : Qsort κ where
  sort compare l := (l.attach.insertionSort fun x y => Before compare x.1 y.1).map Subtype.val
  perm compare l _ := by
    have hperm := (List.perm_insertionSort (fun x y : {x // x ∈ l} => Before compare x.1 y.1)
      l.attach).map Subtype.val
    rwa [List.attach_map_subtype_val] at hperm
  sorted compare l h := by
    have htotal : Std.Total fun x y : {x // x ∈ l} => Before compare x.1 y.1 :=
      ⟨fun x y => h.before_or x.2 y.2⟩
    have htrans : IsTrans {x // x ∈ l} fun x y => Before compare x.1 y.1 :=
      ⟨fun x y z => h.trans x.1 x.2 y.1 y.2 z.1 z.2⟩
    rw [List.pairwise_map]
    exact List.pairwise_insertionSort _ l.attach

/-- Every list for which the comparison is consistent can be sorted. -/
theorem exists_sorted (h : Consistent compare l) :
    ∃ s : List κ, s.Perm l ∧ s.Pairwise (Before compare) :=
  ⟨_, (Qsort.insertion κ).perm compare l h, (Qsort.insertion κ).sorted compare l h⟩

end Njs.Array
