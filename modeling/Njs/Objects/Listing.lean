import Njs.Objects.Enumerate

/-!
# What is enumerated

The properties that the loops go through, as lists. Both the numbers that are counted and the
items that are written come from them.
-/

namespace Njs.Objects.Enumeration

open Njs.Utf8 (code CodePoint)

variable {memory : EnumMemory} {kind : EnumKind} {all : Bool} {items : Items} {nearer : List Link}
  {o : Link} {protos : List Link}

/-- The elements of an array that are there. -/
def arrayListing : ℕ → List (Option Value) → List (Name × Option Value)
  | _, [] => []
  | i, none :: start => arrayListing (i + 1) start
  | i, some v :: start => (decimal i, some v) :: arrayListing (i + 1) start

/-- The characters of a string. -/
def charListing : ℕ → List Name → List (Name × Option Value)
  | _, [] => []
  | i, c :: value => (decimal i, some (.string c)) :: charListing (i + 1) value

/-- The elements or characters of an object. -/
def Link.elements (o : Link) : List (Name × Option Value) :=
  match o.type with
  | .object => []
  | .array start => arrayListing 0 start
  | .string value => charListing 0 value

/-- The properties of a hash that are enumerated. -/
def hashListing (enumerated : (Sigma fun _ : Name => Property) → Bool)
    (hash : List (Sigma fun _ : Name => Property)) : List (Name × Option Value) :=
  (hash.filter enumerated).map fun entry => (entry.1, entry.2.value)

/-- The properties in the hashes of an object that are enumerated. -/
def Link.hashed (o : Link) (nearer : List Link) (all : Bool) : List (Name × Option Value) :=
  hashListing (ownEnumerated nearer all) o.hash.entries ++
    hashListing (sharedEnumerated nearer o all) o.sharedHash.entries

/-- The properties of an object that are enumerated. -/
def Link.listing (o : Link) (nearer : List Link) (all : Bool) : List (Name × Option Value) :=
  o.elements ++ o.hashed nearer all

/-- The properties of the objects in a chain that are enumerated. -/
def chainListing (all : Bool) : List Link → List Link → List (Name × Option Value)
  | _, [] => []
  | nearer, o :: chain => o.listing nearer all ++ chainListing all (nearer ++ [o]) chain

/-! ## Counting -/

theorem ofNat_add_one (n : ℕ) : UInt32.ofNat n + 1 = UInt32.ofNat (n + 1) := by
  rw [UInt32.ofNat_add]
  rfl

theorem lengthLoop_eq {α : Type} (counted : α → Bool) (l : List α) (n : ℕ) :
    lengthLoop counted l (UInt32.ofNat n) = UInt32.ofNat (n + (l.filter counted).length) := by
  induction l generalizing n with
  | nil => rfl
  | cons a l ih =>
    rw [lengthLoop]
    cases h : counted a with
    | true =>
      rw [if_pos rfl, ofNat_add_one, ih, List.filter_cons_of_pos h, List.length_cons]
      congr 1
      omega
    | false =>
      rw [if_neg (by simp), ih, List.filter_cons_of_neg (by simp [h])]

theorem ownEnumerateObjectLength_eq (nearer : List Link) (all : Bool) (o : Link) :
    ownEnumerateObjectLength nearer all o = UInt32.ofNat (o.hashed nearer all).length := by
  have hzero : (0 : UInt32) = UInt32.ofNat 0 := rfl
  rw [ownEnumerateObjectLength, hzero, lengthLoop_eq, lengthLoop_eq, Link.hashed,
    List.length_append, hashListing, hashListing, List.length_map, List.length_map, Nat.zero_add]

/-- Some properties are written one after another. -/
def putAll (memory : EnumMemory) (kind : EnumKind) :
    List (Name × Option Value) → Items → Result Items
  | [], items => .ok items
  | p :: l, items => do
    let items ← putItem memory kind items p
    putAll memory kind l items

theorem length_le_flatten {value : List Name} (hne : ∀ c ∈ value, c ≠ []) :
    value.length ≤ value.flatten.length := by
  induction value with
  | nil => exact le_rfl
  | cons c value ih =>
    obtain ⟨hc, hvalue⟩ := List.forall_mem_cons.mp hne
    have hpos := List.length_pos_of_ne_nil hc
    have hrest := ih hvalue
    rw [List.flatten_cons, List.length_append, List.length_cons]
    omega

theorem putItem_cases (memory : EnumMemory) (kind : EnumKind) (items : Items)
    (p : Name × Option Value) :
    putItem memory kind items p = .error (.throw .memoryError) ∨
      putItem memory kind items p = items.put (kind.item p) := by
  cases kind with
  | both =>
    rw [putItem]
    split_ifs
    · exact Or.inr rfl
    · exact Or.inl rfl
  | _ => exact Or.inr rfl

/-- With memory for entries an item is written. -/
theorem putItem_of_memory (h : ∀ n, memory.entry n = true) (kind : EnumKind) (items : Items)
    (p : Name × Option Value) : putItem memory kind items p = items.put (kind.item p) := by
  cases kind with
  | both => exact if_pos (h _)
  | _ => rfl

theorem put_of_pos (h : 0 < items.room) (x : Item) :
    items.put x = .ok ⟨items.room - 1, items.written ++ [x]⟩ :=
  if_neg (by omega)

/-- If there is room, all is written, or there is no memory for an entry. -/
theorem putAll_of_room (memory : EnumMemory) (kind : EnumKind) {l : List (Name × Option Value)}
    (h : l.length ≤ items.room) :
    putAll memory kind l items = .error (.throw .memoryError) ∨
      putAll memory kind l items =
        .ok ⟨items.room - l.length, items.written ++ l.map kind.item⟩ := by
  induction l generalizing items with
  | nil =>
    right
    rw [putAll, List.map_nil, List.append_nil, List.length_nil, Nat.sub_zero]
  | cons p l ih =>
    rw [List.length_cons] at h
    rw [putAll]
    rcases putItem_cases memory kind items p with hput | hput
    · left
      rw [hput]
      rfl
    · rw [hput, put_of_pos (by omega), ok_bind]
      have hroom : l.length ≤ items.room - 1 := by omega
      rcases @ih ⟨items.room - 1, items.written ++ [kind.item p]⟩ hroom with h | h
      · exact Or.inl h
      · right
        rw [h, List.map_cons, List.append_assoc, List.singleton_append, List.length_cons,
          Nat.sub_sub, Nat.add_comm 1]

theorem putAll_of_memory (h : ∀ n, memory.entry n = true) {l : List (Name × Option Value)}
    (hroom : l.length ≤ items.room) : putAll memory kind l items =
      .ok ⟨items.room - l.length, items.written ++ l.map kind.item⟩ := by
  rcases putAll_of_room memory kind hroom with herror | hok
  · exfalso
    induction l generalizing items with
    | nil => cases herror
    | cons p l ih =>
      rw [List.length_cons] at hroom
      rw [putAll, putItem_of_memory h, put_of_pos (by omega), ok_bind] at herror
      have hroom' : l.length ≤ items.room - 1 := by omega
      exact @ih ⟨items.room - 1, items.written ++ [kind.item p]⟩ hroom' herror
  · exact hok

/-- If there is memory but not the room, an item is written beyond the array. -/
theorem putAll_fault (h : ∀ n, memory.entry n = true) {l : List (Name × Option Value)}
    (hroom : items.room < l.length) : putAll memory kind l items = .error .fault := by
  induction l generalizing items with
  | nil => cases hroom
  | cons p l ih =>
    rw [List.length_cons] at hroom
    rw [putAll, putItem_of_memory h]
    by_cases hzero : items.room = 0
    · rw [Items.put, if_pos hzero]
      rfl
    · have hroom' : items.room - 1 < l.length := by omega
      rw [put_of_pos (by omega), ok_bind]
      exact @ih ⟨items.room - 1, items.written ++ [kind.item p]⟩ hroom'

end Njs.Objects.Enumeration
