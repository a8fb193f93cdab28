import Njs.Lvlhsh.Buckets

/-!
# The invariant of the table

A table is a finite set of entries. Every level counts its used slots, an entry lies in
the slot that the bits of its hash select, and chains of several buckets exist below
the last level only.
-/

namespace Njs.Lvlhsh

open Lib

variable {α : Type}

namespace Slot

/-- The entries below a pointer, in the order in which the slots and cells come. -/
def entries : Slot α → List ℕ → List (UInt32 × α)
  | null, _ => []
  | bucket chain, _ => chainEntries chain
  | level _ slots, shifts =>
    (List.range (2 ^ shifts.headD 0)).flatMap fun i => (slots i).entries shifts.tail

/-- The allocated blocks below a pointer. -/
def blocks : Slot α → List ℕ → List Block
  | null, _ => []
  | bucket chain, _ => chainBlocks chain
  | level word slots, shifts =>
    ⟨levelAddress word (levelMask (shifts.headD 0)), 2 ^ shifts.headD 0 * 8⟩ ::
      (List.range (2 ^ shifts.headD 0)).flatMap fun i => (slots i).blocks shifts.tail

end Slot

@[simp] theorem Slot.entries_singleton (b : Bucket α) (shifts : List ℕ) :
    (Slot.bucket [b]).entries shifts = b.entries := by
  rw [Slot.entries, chainEntries_cons, chainEntries_nil, List.append_nil]

/-- The number of slots that are not `NULL` among the first `n`. -/
def usedSlots (slots : ℕ → Slot α) (n : ℕ) : ℕ :=
  (List.range n).countP fun i => !(slots i).isNull

/-- The hash of every entry selects the slot with the index `i` of a level of `2 ^ s`
slots, `depth` bits below the root. -/
def Selects (depth s i : ℕ) (es : List (UInt32 × α)) : Prop :=
  ∀ e ∈ es, e.1.toNat >>> depth % 2 ^ s = i

/-- The invariant of a pointer, `depth` bits of the hash below the root, where `shifts`
are the shifts of the levels that may follow. -/
def Slot.Ok : Slot α → List ℕ → ℕ → Prop
  | null, _, _ => True
  | bucket chain, shifts, _ =>
    chain ≠ [] ∧ (∀ b ∈ chain, b.Ok) ∧ (shifts.headD 0 ≠ 0 → chain.length = 1)
  | level word slots, shifts, depth =>
    let s := shifts.headD 0
    LevelWord s word (usedSlots slots (2 ^ s)) (levelAddress word (levelMask s)) ∧
      0 < usedSlots slots (2 ^ s) ∧
      ∀ i, (slots i).Ok shifts.tail (depth + s) ∧
        Selects depth s i ((slots i).entries shifts.tail)

/-! ## One slot of a level -/

section Update

variable {β : Type} {n i : ℕ}

/-- One element of a range and the others. -/
private theorem range_perm_cons (h : i < n) :
    (List.range n).Perm (i :: (List.range n).erase i) ∧ ∀ j ∈ (List.range n).erase i, j ≠ i :=
  ⟨List.perm_cons_erase (List.mem_range.mpr h),
    fun _ hj => (List.nodup_range.mem_erase_iff.mp hj).1⟩

/-- The lists of the slots of a level are the list of one slot and a rest that does not
depend on this slot. -/
theorem exists_flatMap_update_perm (f : Slot α → List β) (slots : ℕ → Slot α) (h : i < n) :
    ∃ rest : List β, ((List.range n).flatMap fun j => f (slots j)).Perm (f (slots i) ++ rest) ∧
      ∀ slot, ((List.range n).flatMap fun j => f (Function.update slots i slot j)).Perm
        (f slot ++ rest) := by
  obtain ⟨hperm, hne⟩ := range_perm_cons h
  refine ⟨((List.range n).erase i).flatMap fun j => f (slots j), ?_, fun slot => ?_⟩
  · refine (hperm.flatMap_right _).trans ?_
    rw [List.flatMap_cons]
  · refine (hperm.flatMap_right _).trans ?_
    rw [List.flatMap_cons, Function.update_self, List.flatMap_def, List.flatMap_def]
    refine List.Perm.append_left _ (List.Perm.of_eq (congrArg _ (List.map_congr_left ?_)))
    intro j hj
    rw [Function.update_of_ne (hne j hj)]

/-- Changing one slot changes the number of used slots by the change in this slot. -/
theorem usedSlots_update (slots : ℕ → Slot α) (h : i < n) (slot : Slot α) :
    usedSlots (Function.update slots i slot) n + (if (slots i).isNull then 0 else 1) =
      usedSlots slots n + if slot.isNull then 0 else 1 := by
  obtain ⟨hperm, hne⟩ := range_perm_cons h
  have hothers : ((List.range n).erase i).countP
    (fun j => !(Function.update slots i slot j).isNull) =
      ((List.range n).erase i).countP fun j => !(slots j).isNull := by
    apply List.countP_congr
    intro j hj
    rw [Function.update_of_ne (hne j hj)]
  rw [usedSlots, usedSlots, hperm.countP_eq, hperm.countP_eq, List.countP_cons, List.countP_cons,
    Function.update_self, hothers]
  cases slot.isNull <;> cases (slots i).isNull <;> simp

theorem usedSlots_le (slots : ℕ → Slot α) (n : ℕ) : usedSlots slots n ≤ n := by
  have := List.countP_le_length (p := fun i => !(slots i).isNull) (l := List.range n)
  rwa [List.length_range] at this

theorem usedSlots_pos (slots : ℕ → Slot α) (h : i < n) (hi : (slots i).isNull = false) :
    0 < usedSlots slots n :=
  List.countP_pos_iff.mpr ⟨i, List.mem_range.mpr h, by rw [hi]; rfl⟩

/-- Where no slot is used, there is nothing in the slots. -/
theorem flatMap_eq_nil_of_usedSlots {f : Slot α → List β} (hf : f .null = []) {slots : ℕ → Slot α}
    (h : usedSlots slots n = 0) : ((List.range n).flatMap fun i => f (slots i)) = [] := by
  rw [List.flatMap_eq_nil_iff]
  intro i hi
  have hnull := List.countP_eq_zero.mp h i hi
  cases hslot : slots i with
  | null => exact hf
  | bucket chain => simp [hslot, Slot.isNull] at hnull
  | level word slots => simp [hslot, Slot.isNull] at hnull

end Update

/-! ## Levels -/

/-- The invariant of a level at `p`, which may be empty while it is being filled. -/
structure LevelOk (shifts : List ℕ) (depth : ℕ) (p word : UInt64) (slots : ℕ → Slot α) : Prop where
  word : LevelWord (shifts.headD 0) word (usedSlots slots (2 ^ shifts.headD 0)) p
  slot_ok : ∀ i, (slots i).Ok shifts.tail (depth + shifts.headD 0)
  selects : ∀ i, Selects depth (shifts.headD 0) i ((slots i).entries shifts.tail)

section Levels

variable {shifts : List ℕ} {depth i : ℕ} {p word : UInt64} {slots : ℕ → Slot α}

theorem Slot.ok_level_iff : (Slot.level word slots).Ok shifts depth ↔
    LevelOk shifts depth (levelAddress word (levelMask (shifts.headD 0))) word slots ∧
      0 < usedSlots slots (2 ^ shifts.headD 0) :=
  ⟨fun h => ⟨⟨h.1, fun i => (h.2.2 i).1, fun i => (h.2.2 i).2⟩, h.2.1⟩,
    fun h => ⟨h.1.word, h.2, fun i => ⟨h.1.slot_ok i, h.1.selects i⟩⟩⟩

/-- A level with some used slot is a valid pointer. -/
theorem LevelOk.ok (h : LevelOk shifts depth p word slots)
    (hpos : 0 < usedSlots slots (2 ^ shifts.headD 0)) :
        (Slot.level word slots).Ok shifts depth := by
  rw [Slot.ok_level_iff, h.word.levelAddress]
  exact ⟨h, hpos⟩

/-- A change of one slot keeps the invariant if the counter is adapted. -/
theorem LevelOk.update (h : LevelOk shifts depth p word slots) {slot : Slot α} {word' : UInt64}
    (hslot : slot.Ok shifts.tail (depth + shifts.headD 0))
    (hsel : Selects depth (shifts.headD 0) i (slot.entries shifts.tail))
    (hword : LevelWord (shifts.headD 0) word'
      (usedSlots (Function.update slots i slot) (2 ^ shifts.headD 0)) p) :
    LevelOk shifts depth p word' (Function.update slots i slot) := by
  refine ⟨hword, fun j => ?_, fun j => ?_⟩
  · by_cases hj : j = i
    · subst hj
      rwa [Function.update_self]
    · rw [Function.update_of_ne hj]
      exact h.slot_ok j
  · by_cases hj : j = i
    · subst hj
      rwa [Function.update_self]
    · rw [Function.update_of_ne hj]
      exact h.selects j

/-- The entries of a level, seen from one of its slots. -/
theorem exists_entries_update_perm (shifts : List ℕ) (word : UInt64) (slots : ℕ → Slot α)
    (h : i < 2 ^ shifts.headD 0) :
    ∃ rest, ((Slot.level word slots).entries shifts).Perm
        ((slots i).entries shifts.tail ++ rest) ∧
      ∀ word' slot, ((Slot.level word' (Function.update slots i slot)).entries shifts).Perm
        (slot.entries shifts.tail ++ rest) := by
  obtain ⟨rest, hold, hnew⟩ :=
    exists_flatMap_update_perm (fun slot : Slot α => slot.entries shifts.tail) slots h
  exact ⟨rest, hold, fun _ slot => hnew slot⟩

/-- The blocks of a level at `p`. -/
def levelBlocks (shifts : List ℕ) (p : UInt64) (slots : ℕ → Slot α) : List Block :=
  ⟨p, 2 ^ shifts.headD 0 * 8⟩ ::
    (List.range (2 ^ shifts.headD 0)).flatMap fun i => (slots i).blocks shifts.tail

theorem LevelOk.blocks_eq (h : LevelOk shifts depth p word slots) :
    (Slot.level word slots).blocks shifts = levelBlocks shifts p slots := by
  rw [Slot.blocks, h.word.levelAddress, levelBlocks]

theorem exists_levelBlocks_update_perm (shifts : List ℕ) (p : UInt64) (slots : ℕ → Slot α)
    (h : i < 2 ^ shifts.headD 0) :
    ∃ rest, (levelBlocks shifts p slots).Perm ((slots i).blocks shifts.tail ++ rest) ∧
      ∀ slot, (levelBlocks shifts p (Function.update slots i slot)).Perm
        (slot.blocks shifts.tail ++ rest) := by
  obtain ⟨rest, hold, hnew⟩ :=
    exists_flatMap_update_perm (fun slot : Slot α => slot.blocks shifts.tail) slots h
  exact ⟨_, (hold.cons _).trans List.perm_middle.symm,
    fun slot => ((hnew slot).cons _).trans List.perm_middle.symm⟩

/-- Where the selected slot has no entry with the key, the level has none. -/
theorem not_matches_of_slot {κ : Type} {keyOf : α → κ} {q : Query κ α}
    (hsel : ∀ i, Selects depth (shifts.headD 0) i ((slots i).entries shifts.tail))
    (hno : ∀ e ∈ (slots (q.keyHash.toNat >>> depth % 2 ^ shifts.headD 0)).entries shifts.tail,
      ¬Matches keyOf q e) :
    ∀ e ∈ (Slot.level word slots).entries shifts, ¬Matches keyOf q e := by
  intro e he hmatch
  obtain ⟨i, -, he⟩ := List.mem_flatMap.mp he
  have hi := hsel i e he
  rw [hmatch.1] at hi
  exact hno e (hi ▸ he) hmatch

end Levels

/-! ## Memory -/

section Memory

variable {A : Allocator α} {h base : History Block} {bs : List Block}

theorem free_spec {p : UInt64} {size : ℕ} (hown : h.Owns base (⟨p, size⟩ :: bs)) :
    Ends (free p size) h fun _ h' => h'.Owns base bs :=
  ⟨(), _, rfl, hown.released⟩

theorem alloc_spec {size : ℕ} (hown : h.Owns base bs) :
    Ends (alloc A size) h fun r h' => match r with
      | none => h'.Owns base bs ∧ base.refusals < h'.refusals
      | some (p, _) => h'.Owns base (⟨p, size⟩ :: bs) ∧ size ∣ p.toNat := by
  cases hp : A.answer h size with
  | none => exact ⟨none, .refused :: h, by rw [alloc, hp], hown.refused,
      Nat.lt_succ_of_le (History.refusals_mono hown.base_suffix)⟩
  | some p =>
    have hnew : (⟨p, size⟩ : Block) ∉ h.live := fun hmem => A.fresh hp _ hmem rfl
    exact ⟨some (p, A.stale h), .granted ⟨p, size⟩ :: h, by rw [alloc, hp], hown.granted hnew,
      A.aligned hp⟩

end Memory

end Njs.Lvlhsh
