import Njs.Json.Revival

/-!
# Parsed values in memory

The arrays and objects of a text are made one after another in a memory that has others already.
They have elements and properties of their own, so a parsed value is a tree.
-/

namespace Njs.Json

open Njs.Objects (Name Value)

/-- The objects that are there, and the numbers that are free for new ones and for their
properties. -/
structure Pool where
  heap : Heap
  next : ℕ
  free : ∀ o, next ≤ o → heap.container (.object o) = none
  slots : ∀ v c name p, heap.container v = some c → c.hash.lookup name = some p → p < next
  primitive : ∀ v, isPrimitive v = true → heap.container v = none

/-- The properties of a new object by their names: the first one has this number. -/
def slotsFrom : ℕ → List Name → AList fun _ : Name => ℕ
  | _, [] => ∅
  | p, name :: names => (slotsFrom (p + 1) names).insert name p

/-- The object with this number becomes an array or another object, and the properties from a
number on have these values. -/
def Heap.make (heap : Heap) (o : ℕ) (c : Container) (p : ℕ) (values : List Value) : Heap where
  container := Function.update heap.container (.object o) (some c)
  slot q := if p ≤ q ∧ q < p + values.length then ⟨false, values[q - p]?⟩ else heap.slot q

theorem make_container (heap : Heap) (o : ℕ) (c : Container) (p : ℕ) (values : List Value) :
    (heap.make o c p values).container (.object o) = some c := Function.update_self _ _ _

theorem make_container_of_ne {heap : Heap} {o : ℕ} {v : Value} (h : v ≠ .object o)
    (c : Container) (p : ℕ) (values : List Value) :
    (heap.make o c p values).container v = heap.container v := Function.update_of_ne h _ _

theorem slotsFrom_lookup {p q : ℕ} {names : List Name} {name : Name}
    (h : (slotsFrom p names).lookup name = some q) : p ≤ q ∧ q < p + names.length ∧
      names[q - p]? = some name := by
  induction names generalizing p with
  | nil => cases h
  | cons name' names ih =>
    rw [slotsFrom] at h
    by_cases hname : name = name'
    · subst hname
      rw [AList.lookup_insert] at h
      obtain rfl := Option.some.inj h
      exact ⟨le_rfl, by rw [List.length_cons]; omega, by rw [Nat.sub_self]; rfl⟩
    · rw [AList.lookup_insert_ne hname] at h
      obtain ⟨hle, hlt, hget⟩ := ih h
      refine ⟨by omega, by rw [List.length_cons]; omega, ?_⟩
      obtain ⟨k, rfl⟩ := Nat.exists_eq_add_of_le hle
      rw [Nat.add_sub_cancel_left] at hget
      rw [Nat.add_assoc, Nat.add_sub_cancel_left, Nat.add_comm, List.getElem?_cons_succ]
      exact hget

/-- The heap of a pool with another array or object: its properties come first. -/
def Pool.made (pool : Pool) (array : Option Storage) (names : List Name) (values : List Value) :
    Heap :=
  pool.heap.make (pool.next + names.length) ⟨array, slotsFrom pool.next names⟩ pool.next values

section Pools

variable (pool : Pool) (array : Option Storage) (names : List Name) (values : List Value)

theorem Pool.made_free (o : ℕ) (ho : pool.next + names.length + 1 ≤ o) :
    (pool.made array names values).container (.object o) = none := by
  have hne : Value.object o ≠ .object (pool.next + names.length) := by
    rintro ⟨⟩
    omega
  rw [made, make_container_of_ne hne]
  exact pool.free o (by omega)

theorem Pool.made_slots (v : Value) (c : Container) (name : Name) (p : ℕ)
    (hc : (pool.made array names values).container v = some c)
    (hp : c.hash.lookup name = some p) : p < pool.next + names.length + 1 := by
  rw [made] at hc
  by_cases hv : v = .object (pool.next + names.length)
  · subst hv
    rw [make_container] at hc
    obtain rfl := Option.some.inj hc
    have hlt := (slotsFrom_lookup hp).2.1
    omega
  · rw [make_container_of_ne hv] at hc
    have hlt := pool.slots v c name p hc hp
    omega

theorem Pool.made_primitive (v : Value) (hv : isPrimitive v = true) :
    (pool.made array names values).container v = none := by
  rw [made, make_container_of_ne]
  · exact pool.primitive v hv
  · rintro rfl
    cases hv

/-- The pool with another array or object. -/
def Pool.make : Pool where
  heap := pool.made array names values
  next := pool.next + names.length + 1
  free := pool.made_free array names values
  slots := pool.made_slots array names values
  primitive := pool.made_primitive array names values

end Pools

/-- A new array. -/
def Pool.newArray (pool : Pool) (values : List Value) : Value × Pool :=
  (.object pool.next, pool.make (some ⟨pool.next, 0, values.map some⟩) [] [])

/-- A new object with its properties. -/
def Pool.newObject (pool : Pool) (names : List Name) (values : List Value) : Value × Pool :=
  (.object (pool.next + names.length), pool.make none names values)

/-- One value after another. -/
def loadAll (load : Tree → Pool → Value × Pool) : List Tree → Pool → List Value × Pool
  | [], pool => ([], pool)
  | t :: ts, pool =>
    let r := load t pool
    let rest := loadAll load ts r.2
    (r.1 :: rest.1, rest.2)

/-- The value of a text in memory, if it is nested at most so deep. -/
def load : ℕ → Tree → Pool → Value × Pool
  | _, .null, pool => (.null, pool)
  | _, .boolean b, pool => (.boolean b, pool)
  | _, .number n, pool => (.number n, pool)
  | _, .string s, pool => (.string s, pool)
  | 0, .array _, pool => (.undefined, pool)
  | 0, .object _, pool => (.undefined, pool)
  | depth + 1, .array elements, pool =>
    let r := loadAll (load depth) elements pool
    r.2.newArray r.1
  | depth + 1, .object members, pool =>
    let r := loadAll (load depth) (members.map Prod.snd) pool
    r.2.newObject (members.map Prod.fst) r.1

/-! ## What is in memory -/

/-- A value is nested at most so deep, and the members of its objects have other names. -/
def Tree.Fits : ℕ → Tree → Prop
  | _, .null | _, .boolean _ | _, .number _ | _, .string _ => True
  | 0, .array _ | 0, .object _ => False
  | depth + 1, .array elements => ∀ t ∈ elements, t.Fits depth
  | depth + 1, .object members =>
    (members.map Prod.fst).Nodup ∧ ∀ t ∈ members.map Prod.snd, t.Fits depth

/-- A pool is there with more arrays and objects. -/
structure Pool.Grows (pool pool' : Pool) : Prop where
  next : pool.next ≤ pool'.next
  frame : pool.heap.Frame ∅ pool'.heap

variable {pool pool' pool'' : Pool} {depth : ℕ} {names : List Name} {values : List Value}

theorem Pool.Grows.refl (pool : Pool) : pool.Grows pool := ⟨le_rfl, .refl _⟩

theorem Pool.Grows.trans (h : pool.Grows pool') (h' : pool'.Grows pool'') : pool.Grows pool'' :=
  ⟨h.next.trans h'.next, h.frame.trans h'.frame⟩

theorem Pool.make_grows (pool : Pool) (array : Option Storage) (names : List Name)
    (values : List Value) : pool.Grows (pool.make array names values) := by
  have hcontainer : ∀ v c, pool.heap.container v = some c →
      (pool.made array names values).container v = some c := by
    intro v c hc
    rw [made, make_container_of_ne, hc]
    rintro rfl
    rw [pool.free _ (by omega)] at hc
    cases hc
  refine ⟨by simp only [make]; omega, fun v c hc _ => hcontainer v c hc, fun v hv => ?_,
    fun v c hc => ⟨c, hcontainer v c hc, rfl⟩, fun v c name p hc hp _ => ?_⟩
  · exact (pool.made_primitive array names values v hv).trans (pool.primitive v hv).symm
  · have hlt := pool.slots v c name p hc hp
    exact if_neg (by omega)

/-- Each of the values that are loaded one after another is in a part of its own. -/
theorem loadAll_holds {load : Tree → Pool → Value × Pool} {ts : List Tree}
    (hload : ∀ t ∈ ts, ∀ pool, pool.Grows (load t pool).2 ∧ Holds (load t pool).2.heap depth
      (Set.Ico pool.next (load t pool).2.next) (some (load t pool).1) t) (pool : Pool) :
    pool.Grows (loadAll load ts pool).2 ∧ (loadAll load ts pool).1.length = ts.length ∧
      ∃ part : ℕ → Set ℕ,
        (∀ i, part i ⊆ Set.Ico pool.next (loadAll load ts pool).2.next) ∧
        (∀ i j, i ≠ j → Disjoint (part i) (part j)) ∧
        ∀ i t, ts[i]? = some t →
          Holds (loadAll load ts pool).2.heap depth (part i) (loadAll load ts pool).1[i]? t := by
  induction ts generalizing pool with
  | nil =>
    exact ⟨.refl pool, rfl, fun _ => ∅, fun _ => Set.empty_subset _,
      fun _ _ _ => Set.disjoint_empty _, nofun⟩
  | cons t ts ih =>
    obtain ⟨hgrows, hholds⟩ := hload t List.mem_cons_self pool
    obtain ⟨hrest, hlength, part, hsub, hdisjoint, hparts⟩ :=
      ih (fun t' ht' => hload t' (List.mem_cons_of_mem t ht')) (load t pool).2
    refine ⟨hgrows.trans hrest, by simp only [loadAll, List.length_cons, hlength],
      fun i => Nat.casesOn i (Set.Ico pool.next (load t pool).2.next) part, ?_, ?_, ?_⟩
    · rintro (_ | i)
      · exact Set.Ico_subset_Ico_right hrest.next
      · exact (hsub i).trans (Set.Ico_subset_Ico_left hgrows.next)
    · have hfirst : ∀ i, Disjoint (Set.Ico pool.next (load t pool).2.next) (part i) := fun i =>
        Disjoint.mono_right (hsub i) (Set.disjoint_left.mpr fun _ h h' => h'.1.not_gt h.2)
      rintro (_ | i) (_ | j) hne
      · exact absurd rfl hne
      · exact hfirst j
      · exact (hfirst i).symm
      · exact hdisjoint i j fun hij => hne (congrArg Nat.succ hij)
    · rintro (_ | i) t' ht'
      · obtain rfl := Option.some.inj ht'
        exact hholds.frame hrest.frame (Set.disjoint_empty _)
      · exact hparts i t' ht'

/-- The part of each element of an array. -/
def elementPart (part : ℕ → Set ℕ) : Place → Set ℕ
  | .element i => part i
  | .property _ => ∅

/-- The part of each member of an object. -/
def memberPart (names : List Name) (part : ℕ → Set ℕ) : Place → Set ℕ
  | .element _ => ∅
  | .property name =>
    if names.idxOf name < names.length then part (names.idxOf name) else ∅

/-- An array, with its elements in memory. -/
theorem newArray_holds {ts : List Tree} {low : ℕ} {part : ℕ → Set ℕ} (hlow : low ≤ pool.next)
    (hlength : values.length = ts.length) (hsub : ∀ i, part i ⊆ Set.Ico low pool.next)
    (hdisjoint : ∀ i j, i ≠ j → Disjoint (part i) (part j))
    (hparts : ∀ i t, ts[i]? = some t → Holds pool.heap depth (part i) values[i]? t) :
    Holds (pool.newArray values).2.heap (depth + 1) (Set.Ico low (pool.newArray values).2.next)
      (some (pool.newArray values).1) (.array ts) := by
  have hgrows : pool.Grows (pool.newArray values).2 := pool.make_grows _ _ _
  have hc : (pool.newArray values).2.heap.container (.object pool.next) =
      some ⟨some ⟨pool.next, 0, values.map some⟩, ∅⟩ := make_container _ _ _ _ _
  have hinside : ∀ place, elementPart part place ⊆ Set.Ico low pool.next := by
    rintro (i | name)
    · exact hsub i
    · exact Set.empty_subset _
  refine Or.inr ⟨pool.next, elementPart part, rfl, ?_, ?_⟩
  · refine ⟨⟨_, hc, rfl, _, rfl, ?_⟩, ⟨hlow, Nat.lt_succ_self _⟩, fun place => ?_,
      fun place h => ?_, ?_, ?_⟩
    · rw [List.length_map, hlength]
    · exact (hinside place).trans (Set.Ico_subset_Ico_right (Nat.le_succ _))
    · exact absurd (hinside place h).2 (lt_irrefl _)
    · rintro (i | name) (j | name') hne
      · exact hdisjoint i j fun hij => hne (congrArg Place.element hij)
      · exact Set.disjoint_empty _
      · exact Set.empty_disjoint _
      · exact Set.disjoint_empty _
    · intro name p hp
      rw [find_eq hc] at hp
      cases hp
  · rintro (i | name) t ht
    · obtain ⟨hlt, -⟩ := List.getElem?_eq_some_iff.mp (show ts[i]? = some t from ht)
      refine ⟨⟨_, storage_eq hc, ?_⟩, ?_⟩
      · rwa [List.length_map, hlength]
      · have hget : (pool.newArray values).2.heap.get (.object pool.next) (.element i) =
            values[i]? := by
          simp only [Heap.get, storage_eq hc, Option.bind_some, List.getElem?_map]
          cases values[i]? <;> rfl
        rw [hget]
        exact (hparts i t ht).frame hgrows.frame (Set.disjoint_empty _)
    · cases ht

theorem slotsFrom_keys {p : ℕ} (h : names.Nodup) : (slotsFrom p names).keys = names := by
  induction names generalizing p with
  | nil => rfl
  | cons name names ih =>
    obtain ⟨hnot, hnodup⟩ := List.nodup_cons.mp h
    have herase := @List.erase_of_not_mem Name instBEqOfDecidableEq inferInstance name names hnot
    rw [slotsFrom, AList.keys_insert, ih hnodup]
    exact congrArg (List.cons name) herase

theorem slotsFrom_getElem? {p i : ℕ} {name : Name} (h : names.Nodup)
    (hname : names[i]? = some name) : (slotsFrom p names).lookup name = some (p + i) := by
  have hmem : name ∈ (slotsFrom p names).keys := by
    rw [slotsFrom_keys h]
    exact List.mem_of_getElem? hname
  obtain ⟨q, hq⟩ := Option.isSome_iff_exists.mp (AList.lookup_isSome.mpr hmem)
  obtain ⟨hle, -, hget⟩ := slotsFrom_lookup hq
  have hi : q - p = i :=
    (List.getElem?_inj (List.getElem?_eq_some_iff.mp hget).1 h).mp (hget.trans hname.symm)
  rw [hq, ← hi, Nat.add_sub_cancel' hle]

/-- The members of an object by their names. -/
theorem child_object {members : List (Name × Tree)} {name : Name} {t : Tree}
    (h : (Tree.object members).child (.property name) = some t) :
    ∃ i : ℕ, members[i]? = some (name, t) := by
  obtain ⟨m, hm, rfl⟩ := Option.map_eq_some_iff.mp h
  obtain ⟨i, hi⟩ := List.mem_iff_getElem?.mp (List.mem_of_find?_eq_some hm)
  have hname := List.find?_some hm
  rw [decide_eq_true_eq] at hname
  exact ⟨i, by rw [hi, ← hname]⟩

/-- An object, with the values of its members in memory. -/
theorem newObject_holds {members : List (Name × Tree)} {low : ℕ} {part : ℕ → Set ℕ}
    (hnames : (members.map Prod.fst).Nodup) (hlow : low ≤ pool.next)
    (hlength : values.length = members.length) (hsub : ∀ i, part i ⊆ Set.Ico low pool.next)
    (hdisjoint : ∀ i j, i ≠ j → Disjoint (part i) (part j))
    (hparts : ∀ i t, (members.map Prod.snd)[i]? = some t →
      Holds pool.heap depth (part i) values[i]? t) :
    Holds (pool.newObject (members.map Prod.fst) values).2.heap (depth + 1)
      (Set.Ico low (pool.newObject (members.map Prod.fst) values).2.next)
      (some (pool.newObject (members.map Prod.fst) values).1) (.object members) := by
  have hgrows : pool.Grows (pool.newObject (members.map Prod.fst) values).2 := pool.make_grows _ _ _
  generalize hlist : members.map Prod.fst = names at *
  have hc : (pool.newObject names values).2.heap.container (.object (pool.next + names.length)) =
      some ⟨none, slotsFrom pool.next names⟩ := make_container _ _ _ _ _
  have hinside : ∀ place, memberPart names part place ⊆ Set.Ico low pool.next := by
    rintro (i | name)
    · exact Set.empty_subset _
    · rw [memberPart]
      split_ifs
      · exact hsub _
      · exact Set.empty_subset _
  refine Or.inr ⟨_, memberPart names part, rfl, ?_, ?_⟩
  · refine ⟨⟨_, hc, rfl, ?_⟩, ⟨by omega, Nat.lt_succ_self _⟩, fun place => ?_, fun place h => ?_,
      ?_, ?_⟩
    · rw [slotsFrom_keys hnames, hlist]
    · refine (hinside place).trans (Set.Ico_subset_Ico_right ?_)
      exact hgrows.next
    · have hlt := (hinside place h).2
      omega
    · rintro (i | name) (j | name') hne
      · exact Set.disjoint_empty _
      · exact Set.empty_disjoint _
      · exact Set.disjoint_empty _
      · rw [memberPart, memberPart]
        split_ifs with hname hname'
        · refine hdisjoint _ _ fun heq => hne (congrArg Place.property ?_)
          exact (List.idxOf_inj (List.idxOf_lt_length_iff.mp hname)).mp heq
        · exact Set.disjoint_empty _
        · exact Set.empty_disjoint _
        · exact Set.disjoint_empty _
    · intro name p hp
      rw [find_eq hc] at hp
      obtain ⟨hle, hlt, hget⟩ := slotsFrom_lookup hp
      refine ⟨⟨by omega, hlt.trans (Nat.lt_succ_self _)⟩, fun place hmem => ?_, fun name' hp' => ?_⟩
      · have hlt' := (hinside place hmem).2
        omega
      · rw [find_eq hc] at hp'
        exact Option.some.inj ((slotsFrom_lookup hp').2.2.symm.trans hget)
  · rintro (i | name) t ht
    · cases ht
    · obtain ⟨i, hi⟩ := child_object ht
      have hname : names[i]? = some name := by rw [← hlist, List.getElem?_map, hi]; rfl
      have hvalue : (members.map Prod.snd)[i]? = some t := by rw [List.getElem?_map, hi]; rfl
      obtain ⟨hlt, -⟩ := List.getElem?_eq_some_iff.mp hi
      have hfind := (find_eq hc name).trans (slotsFrom_getElem? hnames hname)
      have hslot : (pool.newObject names values).2.heap.slot (pool.next + i) =
          ⟨false, values[i]?⟩ := by
        refine (if_pos ⟨Nat.le_add_right _ _, by omega⟩).trans ?_
        rw [Nat.add_sub_cancel_left]
      have hpart : memberPart names part (.property name) = part i := by
        obtain ⟨hlt', rfl⟩ := List.getElem?_eq_some_iff.mp hname
        rw [memberPart, hnames.idxOf_getElem i hlt', if_pos hlt']
      refine ⟨⟨_, hfind, by rw [hslot]⟩, ?_⟩
      have hget : (pool.newObject names values).2.heap.get
          (.object (pool.next + names.length)) (.property name) = values[i]? := by
        simp [Heap.get, hfind, hslot]
      rw [hget, hpart]
      exact (hparts i t hvalue).frame hgrows.frame (Set.disjoint_empty _)

theorem scalar_holds {t : Tree} {x : Value} (h : t.scalar = some x) (pool : Pool) (owned : Set ℕ) :
    Holds pool.heap depth owned (some x) t := by
  have hnone := pool.primitive x (scalar_isPrimitive h)
  cases depth with
  | zero => exact ⟨x, h, rfl, hnone⟩
  | succ depth => exact Or.inl ⟨x, h, rfl, hnone⟩

/-- The value of a text is in memory, in arrays and objects that are new. -/
theorem load_holds {t : Tree} (h : t.Fits depth) (pool : Pool) :
    pool.Grows (load depth t pool).2 ∧ Holds (load depth t pool).2.heap depth
      (Set.Ico pool.next (load depth t pool).2.next) (some (load depth t pool).1) t := by
  induction depth generalizing t pool with
  | zero =>
    cases t with
    | array | object => exact h.elim
    | _ => exact ⟨.refl pool, scalar_holds rfl pool _⟩
  | succ depth ih =>
    cases t with
    | array ts =>
      obtain ⟨hgrows, hlength, part, hsub, hdisjoint, hparts⟩ :=
        loadAll_holds (fun t ht pool => ih (h t ht) pool) pool
      exact ⟨hgrows.trans (Pool.make_grows _ _ _ _),
        newArray_holds hgrows.next hlength hsub hdisjoint hparts⟩
    | object members =>
      obtain ⟨hgrows, hlength, part, hsub, hdisjoint, hparts⟩ :=
        loadAll_holds (fun t ht pool => ih (h.2 t ht) pool) pool
      rw [List.length_map] at hlength
      exact ⟨hgrows.trans (Pool.make_grows _ _ _ _),
        newObject_holds h.1 hgrows.next hlength hsub hdisjoint hparts⟩
    | _ => exact ⟨.refl pool, scalar_holds rfl pool _⟩

end Njs.Json
