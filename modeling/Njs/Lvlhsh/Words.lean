import Mathlib.Tactic.Ring
import Njs.Lvlhsh.Table

/-!
# The words behind the tree

The counters of levels and buckets live in the low bits of the words that point to
them. The macros of the source read and change exactly these bits, also when a level is
so full that its counter leaves the bits of its mask.
-/

namespace Njs.Lvlhsh

/-- A mask that keeps the bits from `k` on rounds down to a multiple of `2 ^ k`. -/
theorem and_high_bits (x : UInt64) {m : UInt64} {k : ℕ}
    (hm : ∀ i < 64, m.toNat.testBit i = decide (k ≤ i)) :
    (x &&& m).toNat = x.toNat / 2 ^ k * 2 ^ k := by
  rw [UInt64.toNat_and]
  apply Nat.eq_of_testBit_eq
  intro i
  rw [Nat.testBit_and, Nat.testBit_mul_two_pow, ← Nat.shiftRight_eq_div_pow, Nat.testBit_shiftRight]
  by_cases hi : i < 64
  · rw [hm i hi]
    by_cases hk : k ≤ i
    · simp [hk]
    · simp [hk]
  · have hx : x.toNat < 2 ^ i :=
      lt_of_lt_of_le x.toNat_lt (Nat.pow_le_pow_right (by decide) (by omega))
    rw [Nat.testBit_lt_two_pow hx, Bool.false_and]
    by_cases hk : k ≤ i
    · rw [Nat.add_sub_cancel' hk, Nat.testBit_lt_two_pow hx, Bool.and_false]
    · simp [hk]

private theorem toNat_toUInt64 {n : ℕ} (h : n < 2 ^ 64) : n.toUInt64.toNat = n := by
  change (UInt64.ofNat n).toNat = n
  rw [UInt64.toNat_ofNat', Nat.mod_eq_of_lt h]

theorem levelMask_toNat {s : ℕ} (hs : s < 64) : (levelMask s).toNat = 2 ^ s - 1 := by
  have hpow : 2 ^ s < 2 ^ 64 := Nat.pow_lt_pow_right (by decide) hs
  have hone : ((1 : UInt64) <<< s.toUInt64).toNat = 2 ^ s := by
    rw [UInt64.toNat_shiftLeft, toNat_toUInt64 (by omega), Nat.mod_eq_of_lt hs, UInt64.toNat_one,
      Nat.shiftLeft_eq, Nat.one_mul, Nat.mod_eq_of_lt hpow]
  have hle : (1 : UInt64) ≤ (1 : UInt64) <<< s.toUInt64 := by
    rw [UInt64.le_iff_toNat_le, hone]
    exact Nat.one_le_two_pow
  rw [levelMask, UInt64.toNat_sub_of_le _ _ hle, hone, UInt64.toNat_one]

/-- The slot of a level that a key selects. -/
theorem and_levelMask (key : ℕ) {s : ℕ} (hs : s < 64) :
    key &&& (levelMask s).toNat = key % 2 ^ s := by
  rw [levelMask_toNat hs, Nat.and_two_pow_sub_one_eq_mod]

/-! ## Words of buckets -/

/-- A word points to a bucket at `p` with `n` entries. -/
structure BucketWord (word : UInt64) (n : ℕ) (p : UInt64) : Prop where
  toNat_eq : word.toNat = p.toNat + (2 * n + 1)
  aligned : bucketSize ∣ p.toNat
  le : n ≤ bucketEnd

namespace BucketWord

variable {word p : UInt64} {n : ℕ}

private theorem pos_lt (h : BucketWord word n p) : ∃ m, p.toNat = 128 * m ∧ n ≤ 10 := by
  obtain ⟨m, hm⟩ := h.aligned
  exact ⟨m, hm, h.le⟩

theorem isBucket (h : BucketWord word n p) : isBucket word = true := by
  obtain ⟨m, hm, -⟩ := h.pos_lt
  have hword := h.toNat_eq
  have hodd : (word &&& 1).toNat = 1 := by
    rw [UInt64.toNat_and, UInt64.toNat_one, Nat.and_one_is_mod]
    omega
  simp only [Lvlhsh.isBucket, ne_eq, decide_eq_true_eq]
  intro hzero
  rw [hzero] at hodd
  cases hodd

theorem bucketEntries (h : BucketWord word n p) : bucketEntries word = n := by
  obtain ⟨m, hm, hn⟩ := h.pos_lt
  have hword := h.toNat_eq
  have hlow : (word &&& bucketMask).toNat = 2 * n + 1 := by
    rw [UInt64.toNat_and]
    change word.toNat &&& (2 ^ 7 - 1) = _
    rw [Nat.and_two_pow_sub_one_eq_mod]
    omega
  rw [Lvlhsh.bucketEntries, UInt64.toNat_shiftRight, hlow]
  change (2 * n + 1) >>> 1 = n
  rw [Nat.shiftRight_eq_div_pow]
  omega

theorem bucketAddress (h : BucketWord word n p) : bucketAddress word = p := by
  obtain ⟨m, hm, hn⟩ := h.pos_lt
  have hword := h.toNat_eq
  apply UInt64.toNat_inj.mp
  rw [Lvlhsh.bucketAddress, and_high_bits word (k := 7) (by decide)]
  omega

theorem countInc (h : BucketWord word n p) (hn : n < bucketEnd) :
    BucketWord (countInc word) (n + 1) p := by
  obtain ⟨m, hm, hten⟩ := h.pos_lt
  have hword := h.toNat_eq
  have hlt := p.toNat_lt
  refine ⟨?_, h.aligned, hn⟩
  rw [Lvlhsh.countInc, UInt64.toNat_add, hword]
  change (p.toNat + (2 * n + 1) + 2) % 2 ^ 64 = _
  omega

theorem countDec (h : BucketWord word n p) (hn : 1 < n) :
    BucketWord (countDec word) (n - 1) p := by
  have hword := h.toNat_eq
  have hle := h.le
  have htwo : (2 : UInt64).toNat = 2 := rfl
  refine ⟨?_, h.aligned, by omega⟩
  rw [Lvlhsh.countDec, UInt64.toNat_sub_of_le _ _ (by rw [UInt64.le_iff_toNat_le]; omega), hword]
  omega

/-- The word of a new bucket. -/
theorem storeBucket {p : UInt64} (h : bucketSize ∣ p.toNat) : BucketWord (storeBucket p) 1 p := by
  obtain ⟨m, hm⟩ := h
  refine ⟨?_, ⟨m, hm⟩, by decide⟩
  have hand : p.toNat &&& 3 = 0 := by
    rw [show 3 = 2 ^ 2 - 1 from rfl, Nat.and_two_pow_sub_one_eq_mod, hm]
    simp only [bucketSize]
    omega
  have hor : p.toNat ||| 3 = p.toNat + 3 := by
    have hshift : p.toNat = (p.toNat / 2 ^ 2) <<< 2 := by
      rw [Nat.shiftLeft_eq, hm]
      simp only [bucketSize]
      omega
    rw [hshift, ← Nat.shiftLeft_add_eq_or_of_lt (by decide)]
  rw [Lvlhsh.storeBucket, UInt64.toNat_or, UInt64.toNat_or]
  change p.toNat ||| 2 ||| 1 = _
  rw [Nat.or_assoc]
  exact hor

end BucketWord

/-! ## Words of levels -/

/-- A word points to a level at `p` of `2 ^ s` slots, of which `n` are in use. -/
structure LevelWord (s : ℕ) (word : UInt64) (n : ℕ) (p : UInt64) : Prop where
  toNat_eq : word.toNat = p.toNat + 2 * n
  aligned : 2 ^ s * 8 ∣ p.toNat
  le : n ≤ 2 ^ s
  pos : 0 < s
  lt : s < 61

namespace LevelWord

variable {s : ℕ} {word p : UInt64} {n : ℕ}

private theorem exists_mul (h : LevelWord s word n p) :
    ∃ m, p.toNat = 2 ^ s * 8 * m ∧ p.toNat + 2 ^ s * 8 ≤ 2 ^ 64 := by
  obtain ⟨m, hm⟩ := h.aligned
  refine ⟨m, hm, ?_⟩
  have hs := h.lt
  have hsplit : 2 ^ 64 = 2 ^ s * 8 * 2 ^ (61 - s) := by
    rw [Nat.mul_assoc, show 8 = 2 ^ 3 from rfl, ← Nat.pow_add, ← Nat.pow_add]
    congr 1
    omega
  have hlt := p.toNat_lt
  rw [hm, hsplit] at hlt ⊢
  have hm' := Nat.lt_of_mul_lt_mul_left hlt
  calc 2 ^ s * 8 * m + 2 ^ s * 8 = 2 ^ s * 8 * (m + 1) := by ring
    _ ≤ 2 ^ s * 8 * 2 ^ (61 - s) := Nat.mul_le_mul_left _ hm'

theorem not_isBucket (h : LevelWord s word n p) : isBucket word = false := by
  obtain ⟨m, hm, -⟩ := h.exists_mul
  have hword := h.toNat_eq
  have heven : (word &&& 1).toNat = 0 := by
    rw [UInt64.toNat_and, UInt64.toNat_one, Nat.and_one_is_mod, hword, hm]
    have h8 : 2 ^ s * 8 * m = 2 * (2 ^ s * 4 * m) := by ring
    omega
  simp only [Lvlhsh.isBucket, ne_eq, decide_eq_false_iff_not, not_not]
  exact UInt64.toNat_inj.mp heven

private theorem high_bits (hs : s < 61) :
    ∀ i < 64, ((~~~(levelMask s)) <<< (2 : UInt64)).toNat.testBit i = decide (s + 2 ≤ i) := by
  intro i hi
  have hpow : 2 ^ s - 1 < 2 ^ 64 :=
    lt_of_le_of_lt (Nat.sub_le _ _) (Nat.pow_lt_pow_right (by decide) (by omega))
  have hnot : (~~~(levelMask s)).toNat = 2 ^ 64 - (2 ^ s - 1 + 1) := by
    rw [UInt64.toNat_not, levelMask_toNat (by omega)]
    change 2 ^ 64 - 1 - (2 ^ s - 1) = _
    omega
  have htwo : (2 : UInt64).toNat % 64 = 2 := rfl
  rw [UInt64.toNat_shiftLeft, hnot, htwo, Nat.testBit_mod_two_pow, Nat.testBit_shiftLeft]
  by_cases h2 : 2 ≤ i
  · rw [Nat.testBit_two_pow_sub_succ hpow, Nat.testBit_two_pow_sub_one]
    have h1 : decide (i < 64) = true := by simpa using hi
    have h3 : decide (i - 2 < 64) = true := by simpa using (by omega : i - 2 < 64)
    have h4 : (!decide (i - 2 < s)) = decide (s + 2 ≤ i) := by
      rw [← decide_not]
      exact decide_eq_decide.mpr (by omega)
    simp [h1, h2, h3, h4]
  · have h5 : decide (s + 2 ≤ i) = false := by simpa using (by omega : i < s + 2)
    simp [h2, h5]

/-- The address is found also when the level is full. -/
theorem levelAddress (h : LevelWord s word n p) : levelAddress word (levelMask s) = p := by
  obtain ⟨m, hm, -⟩ := h.exists_mul
  have hword := h.toNat_eq
  have hle := h.le
  apply UInt64.toNat_inj.mp
  rw [Lvlhsh.levelAddress, and_high_bits word (high_bits h.lt), hword]
  have hp : p.toNat = 2 * m * 2 ^ (s + 2) := by
    rw [hm, Nat.pow_add]
    ring
  have hlt : 2 * n < 2 ^ (s + 2) := by
    rw [Nat.pow_add]
    have := Nat.one_le_two_pow (n := s)
    omega
  rw [hp, Nat.add_comm, Nat.add_mul_div_right _ _ (Nat.two_pow_pos _), Nat.div_eq_of_lt hlt,
    Nat.zero_add]

/-- The counter reads zero for an empty level, and for a full one as well. -/
theorem levelEntries_eq_zero_iff (h : LevelWord s word n p) (hn : n < 2 ^ s) :
    levelEntries word (levelMask s) = 0 ↔ n = 0 := by
  obtain ⟨m, hm, -⟩ := h.exists_mul
  have hs := h.lt
  have hword := h.toNat_eq
  have hone : (1 : UInt64).toNat % 64 = 1 := rfl
  have hmask : (levelMask s <<< (1 : UInt64)).toNat = (2 ^ s - 1) <<< 1 := by
    rw [UInt64.toNat_shiftLeft, levelMask_toNat (by omega), hone, Nat.mod_eq_of_lt]
    rw [Nat.shiftLeft_eq]
    have : 2 ^ s < 2 ^ 61 := Nat.pow_lt_pow_right (by decide) hs
    omega
  have hsplit : word.toNat = (word.toNat / 2) <<< 1 := by
    rw [Nat.shiftLeft_eq, hword, hm]
    have h8 : 2 ^ s * 8 * m = 2 * (2 ^ s * 4 * m) := by ring
    omega
  have hhalf : word.toNat / 2 = n + 2 ^ s * (4 * m) := by
    rw [hword, hm]
    have h8 : 2 ^ s * 8 * m = 2 * (2 ^ s * (4 * m)) := by ring
    omega
  have hcount : (levelEntries word (levelMask s)).toNat = 2 * n := by
    rw [Lvlhsh.levelEntries, UInt64.toNat_and, hmask, hsplit, ← Nat.shiftLeft_and_distrib,
      Nat.and_two_pow_sub_one_eq_mod, Nat.shiftLeft_eq, hhalf, Nat.add_mul_mod_self_left,
      Nat.mod_eq_of_lt hn]
    omega
  rw [← UInt64.toNat_inj, hcount]
  change 2 * n = 0 ↔ n = 0
  omega

theorem countInc (h : LevelWord s word n p) (hn : n < 2 ^ s) :
    LevelWord s (countInc word) (n + 1) p := by
  obtain ⟨m, -, hlt⟩ := h.exists_mul
  have hword := h.toNat_eq
  refine ⟨?_, h.aligned, hn, h.pos, h.lt⟩
  rw [Lvlhsh.countInc, UInt64.toNat_add, hword]
  change (p.toNat + 2 * n + 2) % 2 ^ 64 = _
  omega

theorem countDec (h : LevelWord s word n p) (hn : 0 < n) :
    LevelWord s (countDec word) (n - 1) p := by
  have hword := h.toNat_eq
  have hle := h.le
  have htwo : (2 : UInt64).toNat = 2 := rfl
  refine ⟨?_, h.aligned, by omega, h.pos, h.lt⟩
  rw [Lvlhsh.countDec, UInt64.toNat_sub_of_le _ _ (by rw [UInt64.le_iff_toNat_le]; omega), hword]
  omega

/-- The word of a new level is its address. -/
theorem of_aligned {p : UInt64} (h : 2 ^ s * 8 ∣ p.toNat) (hpos : 0 < s) (hlt : s < 61) :
    LevelWord s p 0 p :=
  ⟨rfl, h, Nat.zero_le _, hpos, hlt⟩

end LevelWord

end Njs.Lvlhsh
