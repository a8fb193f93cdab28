import Njs.Lvlhsh.Words

/-!
# Iterating

`njs_lvlhsh_each` returns one entry per call. The iterator remembers the position in a
bucket, and the slots on the way to this bucket in the bits of one 32-bit word.
-/

namespace Njs.Lvlhsh

variable {α : Type}

/-- The field `bucket` of an iterator. -/
inductive Position (α : Type)
  | null
  /-- `NJS_LVLHSH_BUCKET_DONE`. -/
  | done
  /-- A bucket and the chain behind it. -/
  | bucket (b : Bucket α) (chain : List (Bucket α))

/-- `njs_lvlhsh_each_t`; the field `entry` counts entries. -/
structure Each (α : Type) where
  bucket : Position α
  current : UInt32
  entry : ℕ
  entries : ℕ
  keyHash : UInt32

/-- `njs_lvlhsh_each_init`. -/
def Each.init : Each α := ⟨.null, 0, 0, 0, 0⟩

/-- The loop of `njs_lvlhsh_bucket_each` over free entries: the first valid entry and the
position behind it. -/
def skipFree : List (Cell α) → ℕ → Option (α × UInt32 × ℕ)
  | [], _ => none
  | e :: cells, entry =>
    match e.value with
    | none => skipFree cells (entry + 1)
    | some value => some (value, e.key, entry + 1)

/-- `njs_lvlhsh_bucket_each`. -/
def bucketEach (lhe : Each α) : Option (α × Each α) :=
  match lhe.bucket with
  | .null => none
  | .done => none
  | .bucket b chain => do
    let (value, key, entry) ← skipFree (b.cells.drop lhe.entry) lhe.entry
    if lhe.entries = 0 then none
    else if lhe.entries = 1 then
      match chain with
      | [] => some (value, ⟨.done, lhe.current, 0, 0, key⟩)
      | b :: chain => some (value, ⟨.bucket b chain, lhe.current, 0, bucketEntries b.word, key⟩)
    else some (value, ⟨.bucket b chain, lhe.current, entry, lhe.entries - 1, key⟩)

/-- The slot of a level at which the iterator is. -/
def levelIndex (current : UInt32) (mask : UInt64) (shift : ℕ) : UInt64 :=
  (current >>> shift.toUInt32).toUInt64 &&& mask

/-- The bits of the next slot of a level. -/
def nextIndex (n mask : UInt64) (shift : ℕ) : UInt64 := ((n + 1) &&& mask) <<< shift.toUInt64

/-- The bits of one level of the word are replaced. -/
def setIndex (current : UInt32) (mask : UInt64) (shift : ℕ) (n : UInt64) : UInt32 :=
  ((current.toUInt64 &&& ~~~(mask <<< shift.toUInt64)).toUInt32.toUInt64 ||| n).toUInt32

/-- The loop of `njs_lvlhsh_level_each`, for at most `fuel` slots; `visit` is what its
body does with the pointer in a slot. -/
def levelLoop (levelShift shift : ℕ) (visit : ℕ → Each α → Option (Option α × Each α)) :
    ℕ → Each α → Option (Option α × Each α)
  | 0, _ => none
  | fuel + 1, lhe => do
    let mask := levelMask levelShift
    let n := levelIndex lhe.current mask shift
    match ← visit n.toNat lhe with
    | (some value, lhe) => some (some value, lhe)
    | (none, lhe) =>
      let n := nextIndex n mask shift
      let lhe := { lhe with current := setIndex lhe.current mask shift n }
      if n ≠ 0 then levelLoop levelShift shift visit fuel lhe else some (none, lhe)

/-- What the loop of `njs_lvlhsh_level_each` does with a pointer; the last case is
`njs_lvlhsh_level_each`. -/
def slotEach (fuel : ℕ) : Slot α → List ℕ → ℕ → Each α → Option (Option α × Each α)
  | .null, _, _, lhe => some (none, lhe)
  | .bucket [], _, _, _ => none
  | .bucket (b :: chain), _, _, lhe =>
    if isBucket b.word then
      match lhe.bucket with
      | .done => some (none, { lhe with bucket := .null })
      | _ => do
        let (value, lhe) ← bucketEach
          { lhe with bucket := .bucket b chain, entries := bucketEntries b.word, entry := 0 }
        some (some value, lhe)
    else none
  | .level word slots, shifts, shift, lhe =>
    if isBucket word then none
    else
      let levelShift := shifts.headD 0
      levelLoop levelShift shift
        (fun n => slotEach fuel (slots n) shifts.tail (shift + levelShift)) fuel lhe

/-- `njs_lvlhsh_each`. -/
def each (fuel : ℕ) (shifts : List ℕ) (lh : Slot α) (lhe : Each α) :
    Option (Option α × Each α) :=
  match lhe.bucket, lh with
  | .done, .null => none
  | .done, .bucket chain =>
    if isBucket (Slot.bucket chain).word then some (none, lhe) else none
  | .done, .level word slots => slotEach fuel (.level word slots) shifts 0 lhe
  | .null, .null => some (none, lhe)
  | .null, .bucket [] => none
  | .null, .bucket (b :: chain) => do
    if isBucket b.word then
      let (value, lhe) ← bucketEach
        { lhe with bucket := .bucket b chain, entries := bucketEntries b.word }
      some (some value, lhe)
    else none
  | .null, .level word slots => slotEach fuel (.level word slots) shifts 0 lhe
  | .bucket _ _, _ => do
    let (value, lhe) ← bucketEach lhe
    some (some value, lhe)

/-- The entries that repeated calls return before the first `NULL`, if it comes within
the given number of calls. -/
def eachAll (fuel : ℕ) (shifts : List ℕ) (lh : Slot α) : ℕ → Each α → Option (List (UInt32 × α))
  | 0, _ => none
  | calls + 1, lhe => do
    match ← each fuel shifts lh lhe with
    | (none, _) => some []
    | (some value, lhe) => do
      let es ← eachAll fuel shifts lh calls lhe
      some ((lhe.keyHash, value) :: es)

/-! ## The word of an iterator -/

section Index

variable {current : UInt32} {s shift : ℕ}

private theorem toUInt64_toNat {n : ℕ} (h : n < 2 ^ 32) : n.toUInt64.toNat = n := by
  change (UInt64.ofNat n).toNat = n
  rw [UInt64.toNat_ofNat', Nat.mod_eq_of_lt (lt_trans h (by decide))]

private theorem toUInt32_toNat {n : ℕ} (h : n < 2 ^ 32) : n.toUInt32.toNat = n := by
  change (UInt32.ofNat n).toNat = n
  rw [UInt32.toNat_ofNat', Nat.mod_eq_of_lt h]

theorem levelIndex_toNat (hs : s < 64) (hshift : shift < 32) :
    (levelIndex current (levelMask s) shift).toNat = current.toNat / 2 ^ shift % 2 ^ s := by
  rw [levelIndex, UInt64.toNat_and, and_levelMask _ hs, UInt32.toNat_toUInt64,
    UInt32.toNat_shiftRight, toUInt32_toNat (by omega), Nat.mod_eq_of_lt hshift,
    Nat.shiftRight_eq_div_pow]

theorem nextIndex_toNat {n : UInt64} (hn : n.toNat < 2 ^ s) (hs : s + shift < 64)
    (hshift : shift < 32) :
    (nextIndex n (levelMask s) shift).toNat = (n.toNat + 1) % 2 ^ s * 2 ^ shift := by
  have hpow : 2 ^ s * 2 ^ shift < 2 ^ 64 := by
    rw [← Nat.pow_add]
    exact Nat.pow_lt_pow_right (by decide) hs
  have hle : 2 ^ s < 2 ^ 64 := Nat.pow_lt_pow_right (by decide) (by omega)
  have hmod := Nat.mod_lt (n.toNat + 1) (Nat.two_pow_pos s)
  have hsucc : (n + 1).toNat = n.toNat + 1 := by
    rw [UInt64.toNat_add]
    exact Nat.mod_eq_of_lt (by rw [UInt64.toNat_one]; omega)
  rw [nextIndex, UInt64.toNat_shiftLeft, UInt64.toNat_and, and_levelMask _ (by omega), hsucc,
    toUInt64_toNat (by omega), Nat.mod_eq_of_lt (by omega : shift < 64), Nat.shiftLeft_eq]
  exact Nat.mod_eq_of_lt (lt_trans (Nat.mul_lt_mul_of_pos_right hmod (Nat.two_pow_pos _)) hpow)

/-- The bits of one level are cleared. -/
private theorem testBit_clear (hs : s + shift < 64) (hshift : shift < 32) (i : ℕ) :
    (current.toUInt64 &&& ~~~(levelMask s <<< shift.toUInt64)).toUInt32.toNat.testBit i =
      (current.toNat.testBit i && !decide (shift ≤ i ∧ i < shift + s)) := by
  have hmask : (levelMask s <<< shift.toUInt64).toNat = (2 ^ s - 1) * 2 ^ shift := by
    rw [UInt64.toNat_shiftLeft, toUInt64_toNat (by omega), Nat.mod_eq_of_lt (by omega : shift < 64),
      levelMask_toNat (by omega), Nat.shiftLeft_eq, Nat.mod_eq_of_lt]
    have hpow : 2 ^ s * 2 ^ shift < 2 ^ 64 := by
      rw [← Nat.pow_add]
      exact Nat.pow_lt_pow_right (by decide) hs
    exact lt_of_le_of_lt (Nat.mul_le_mul_right _ (Nat.sub_le _ _)) hpow
  have hlt : (2 ^ s - 1) * 2 ^ shift < 2 ^ 64 := hmask ▸ UInt64.toNat_lt _
  have hnot : (~~~(levelMask s <<< shift.toUInt64)).toNat =
      2 ^ 64 - ((2 ^ s - 1) * 2 ^ shift + 1) := by
    rw [UInt64.toNat_not, hmask]
    change 2 ^ 64 - 1 - _ = _
    omega
  rw [UInt64.toNat_toUInt32, UInt64.toNat_and, UInt32.toNat_toUInt64, hnot]
  change (_ % 2 ^ 32).testBit i = _
  rw [Nat.testBit_mod_two_pow, Nat.testBit_and, Nat.testBit_two_pow_sub_succ hlt,
    Nat.testBit_mul_two_pow, Nat.testBit_two_pow_sub_one]
  by_cases hi : i < 32
  · have hi' : i < 64 := by omega
    by_cases h1 : shift ≤ i
    · have h2 : i - shift < s ↔ i < shift + s := by omega
      simp [hi, hi', h1, h2]
    · simp [hi, hi', h1]
  · have hfalse : current.toNat.testBit i = false :=
      Nat.testBit_lt_two_pow (lt_of_lt_of_le current.toNat_lt
        (Nat.pow_le_pow_right (by decide) (by omega)))
    simp [hi, hfalse]

/-- Setting the index of a level keeps the levels above. -/
theorem setIndex_mod {n : UInt64} {m : ℕ} (hs : s + shift < 64) (hshift : shift < 32)
    (hn : n.toNat = m * 2 ^ shift) :
    (setIndex current (levelMask s) shift n).toNat % 2 ^ shift = current.toNat % 2 ^ shift := by
  apply Nat.eq_of_testBit_eq
  intro i
  rw [Nat.testBit_mod_two_pow, Nat.testBit_mod_two_pow]
  by_cases hi : i < shift
  · have hi' : i < 32 := by omega
    rw [setIndex, UInt64.toNat_toUInt32]
    change (_ && (_ % 2 ^ 32).testBit i) = _
    rw [Nat.testBit_mod_two_pow, UInt64.toNat_or, Nat.testBit_or, UInt32.toNat_toUInt64,
      testBit_clear hs hshift, hn, Nat.testBit_mul_two_pow]
    have h1 : ¬shift ≤ i := by omega
    simp [hi, hi', h1]
  · simp [hi]

/-- Setting the index of a level where the levels below are at their first slot. -/
theorem setIndex_toNat {n : UInt64} {m : ℕ} (hs : s + shift ≤ 32) (hshift : shift < 32)
    (hcurrent : current.toNat < 2 ^ (shift + s)) (hm : m < 2 ^ s) (hn : n.toNat = m * 2 ^ shift) :
    (setIndex current (levelMask s) shift n).toNat =
      current.toNat % 2 ^ shift + m * 2 ^ shift := by
  have hlow := Nat.mod_lt current.toNat (Nat.two_pow_pos shift)
  have hclear : (current.toUInt64 &&& ~~~(levelMask s <<< shift.toUInt64)).toUInt32.toNat =
      current.toNat % 2 ^ shift := by
    apply Nat.eq_of_testBit_eq
    intro i
    rw [testBit_clear (by omega) hshift, Nat.testBit_mod_two_pow]
    by_cases h1 : shift ≤ i
    · have h2 : ¬i < shift := by omega
      by_cases h3 : i < shift + s
      · simp [h1, h2, h3]
      · have hfalse : current.toNat.testBit i = false :=
          Nat.testBit_lt_two_pow (lt_of_lt_of_le hcurrent
            (Nat.pow_le_pow_right (by decide) (by omega)))
        simp [hfalse]
    · have h2 : i < shift := by omega
      simp [h1, h2]
  have hsum : current.toNat % 2 ^ shift + m * 2 ^ shift < 2 ^ 32 := by
    have h1 : (m + 1) * 2 ^ shift ≤ 2 ^ s * 2 ^ shift := Nat.mul_le_mul_right _ hm
    have h2 : 2 ^ s * 2 ^ shift ≤ 2 ^ 32 := by
      rw [← Nat.pow_add]
      exact Nat.pow_le_pow_right (by decide) hs
    rw [Nat.add_mul, Nat.one_mul] at h1
    omega
  rw [setIndex, UInt64.toNat_toUInt32, UInt64.toNat_or, UInt32.toNat_toUInt64, hclear, hn,
    Nat.or_comm, ← Nat.shiftLeft_eq, ← Nat.shiftLeft_add_eq_or_of_lt hlow, Nat.shiftLeft_eq,
    Nat.add_comm]
  exact Nat.mod_eq_of_lt hsum

end Index

end Njs.Lvlhsh
