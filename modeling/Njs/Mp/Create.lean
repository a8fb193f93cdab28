import Njs.Mp.Alloc

/-!
# Created pools

The sizes that `njs_mp_create` accepts are powers of two, so that the loops of
`njs_mp_fast_create` give one slot for each power from the smallest chunks to half a page.
-/

namespace Njs.Mp

open Njs.Rbtree

theorem shiftLoop_pow {fuel count j : ℕ} (hj : j < fuel) :
    shiftLoop fuel count (2 ^ j) = count + j + 1 := by
  induction fuel generalizing count j with
  | zero => omega
  | succ fuel ih =>
    rw [shiftLoop]
    cases j with
    | zero => rfl
    | succ j =>
      have hhalf : 2 ^ (j + 1) / 2 = 2 ^ j := by
        rw [Nat.pow_succ, Nat.mul_div_cancel _ (by decide)]
      have hpos := Nat.two_pow_pos j
      rw [hhalf, if_pos (by omega), ih (by omega)]
      omega

theorem shift_pow {m : ℕ} (hm : 0 < m) (hlt : m ≤ 64) : shift (2 ^ m) = m := by
  obtain ⟨j, rfl⟩ : ∃ j, m = j + 1 := ⟨m - 1, by omega⟩
  have hhalf : 2 ^ (j + 1) / 2 = 2 ^ j := by
    rw [Nat.pow_succ, Nat.mul_div_cancel _ (by decide)]
  rw [shift, hhalf, shiftLoop_pow (by omega)]
  omega

theorem smallestChunk_pow {m fuel d : ℕ} (hd : d < fuel) :
    smallestChunk (2 ^ m) fuel (2 ^ (m + d + 1)) = 2 ^ m := by
  induction fuel generalizing d with
  | zero => omega
  | succ fuel ih =>
    have hhalf : 2 ^ (m + d + 1) / 2 = 2 ^ (m + d) := by
      rw [Nat.pow_succ, Nat.mul_div_cancel _ (by decide)]
    rw [smallestChunk, hhalf]
    cases d with
    | zero => exact if_neg (Nat.lt_irrefl _)
    | succ d =>
      rw [if_pos (Nat.pow_lt_pow_right (by decide) (by omega))]
      exact ih (by omega)

theorem fillSlots_pow {j fuel d : ℕ} (hd : d < fuel) :
    fillSlots (2 ^ (j + d + 1)) fuel (2 ^ j) = (List.range' j (d + 1)).map fun i =>
      ⟨2 ^ i % 2 ^ 32, (2 ^ (j + d + 1 - i) - 1) % 2 ^ 8⟩ := by
  induction fuel generalizing j d with
  | zero => omega
  | succ fuel ih =>
    have hdiv : 2 ^ (j + d + 1) / 2 ^ j = 2 ^ (j + d + 1 - j) :=
      Nat.pow_div (by omega) (by decide)
    rw [fillSlots, List.range'_succ, List.map_cons, hdiv, ← Nat.pow_succ]
    congr 1
    cases d with
    | zero => exact if_neg (Nat.lt_irrefl _)
    | succ d =>
      rw [if_pos (Nat.pow_lt_pow_right (by decide) (by omega))]
      have hshift : j + (d + 1) + 1 = j + 1 + d + 1 := by omega
      rw [hshift]
      exact ih (by omega)

/-- Accepted sizes: powers of two that fit each other. -/
structure Accepted (clusterSize pageAlignment pageSize minChunkSize k m : ℕ) : Prop where
  pageSize : pageSize = 2 ^ k
  minChunkSize : minChunkSize = 2 ^ m
  six_le : 6 ≤ k
  lt : k < 64
  chunk_le : m ≤ k
  page_le : k ≤ m + 5
  alignment : ∃ a ≤ k, max pageAlignment maxAlignment = 2 ^ a
  cluster : 2 ^ k ∣ clusterSize
  pages_le : clusterSize / 2 ^ k ≤ 256

theorem exists_pow {n : ℕ} (hn : n ≠ 0) (hpow : isPowerOfTwo n) : ∃ e, n = 2 ^ e :=
  Pool.eq_two_pow hn hpow

theorem create_accepted {clusterSize pageAlignment pageSize minChunkSize : UInt64} {pool : Pool}
    (h : create clusterSize pageAlignment pageSize minChunkSize = some pool) :
    ∃ k m, Accepted clusterSize.toNat pageAlignment.toNat pageSize.toNat minChunkSize.toNat k m ∧
      pool = fastCreate clusterSize.toNat (max pageAlignment.toNat maxAlignment) pageSize.toNat
        minChunkSize.toNat := by
  rw [create] at h
  simp only at h
  split at h
  · cases h
  · rename_i hpow
    split at h
    · cases h
    · rename_i hsizes
      push Not at hpow hsizes
      obtain ⟨halign, hpage, hchunk⟩ := hpow
      obtain ⟨h64, hpa, hpc, hmin, hcp, hcount, hmod⟩ := hsizes
      have hlt := pageSize.toNat_lt
      obtain ⟨k, hk⟩ := exists_pow (by omega) hpage
      have hne : minChunkSize.toNat ≠ 0 := fun heq => by
        rw [heq] at hmin
        omega
      obtain ⟨m, hm⟩ := exists_pow hne hchunk
      rw [hk] at h64 hpa hpc hmin hcp hcount hmod hlt
      rw [hm] at hpc hmin
      have hkm : k ≤ m + 5 := by
        by_cases hbig : 64 ≤ m + 5
        · have hdvd : 2 ^ 64 ∣ 2 ^ m * 32 := by
            have : 2 ^ m * 32 = 2 ^ (m + 5) := by rw [Nat.pow_add]
            rw [this]
            exact Nat.pow_dvd_pow 2 hbig
          rw [Nat.mod_eq_zero_of_dvd hdvd] at hmin
          omega
        · have hle : 2 ^ k ≤ 2 ^ (m + 5) := by
            rw [Nat.pow_add]
            exact Nat.le_trans hmin (Nat.mod_le ..)
          exact (Nat.pow_le_pow_iff_right (by decide)).mp hle
      refine ⟨k, m, ⟨hk, hm, ?_, ?_, ?_, hkm, ?_, Nat.dvd_of_mod_eq_zero hmod, hcount⟩,
        (Option.some.inj h).symm⟩
      · by_contra hsmall
        have : 2 ^ k ≤ 2 ^ 5 := Nat.pow_le_pow_right (by decide) (by omega)
        omega
      · by_contra hbig
        have : 2 ^ 64 ≤ 2 ^ k := Nat.pow_le_pow_right (by decide) (by omega)
        omega
      · exact (Nat.pow_le_pow_iff_right (by decide)).mp hpc
      · obtain ⟨a, ha⟩ : ∃ a, max pageAlignment.toNat maxAlignment = 2 ^ a := by
          rcases Nat.le_total pageAlignment.toNat maxAlignment with hle | hle
          · exact ⟨4, by rw [Nat.max_eq_right hle]; rfl⟩
          · rw [Nat.max_eq_left hle]
            exact exists_pow (by unfold maxAlignment at hle; omega) halign
        exact ⟨a, (Nat.pow_le_pow_iff_right (by decide)).mp (ha ▸ hpa), ha⟩

/-- The settings of a created pool. -/
theorem Accepted.valid {c a p q k m : ℕ} (h : Accepted c a p q k m) :
    (fastCreate c (max a maxAlignment) p q).Valid ∧
      (fastCreate c (max a maxAlignment) p q).depth = k - m := by
  obtain ⟨rfl, rfl, hsix, hlt, hle, hkm, ⟨e, he, halign⟩, hdvd, hpages⟩ := h
  have hchunkShift : shift (2 ^ m) % 2 ^ 8 = m := by
    rw [shift_pow (by omega) (by omega)]
    omega
  have hpageShift : shift (2 ^ k) % 2 ^ 8 = k := by
    rw [shift_pow (by omega) (by omega)]
    omega
  have hdepth : (fastCreate c (max a maxAlignment) (2 ^ k) (2 ^ m)).depth = k - m := by
    change shift (2 ^ k) % 2 ^ 8 - shift (2 ^ m) % 2 ^ 8 = k - m
    rw [hchunkShift, hpageShift]
  refine ⟨?_, hdepth⟩
  by_cases hk : k < 32
  · have hpow : ∀ i, i < 32 → 2 ^ i % 2 ^ 32 = 2 ^ i := fun i hi =>
      Nat.mod_eq_of_lt (Nat.pow_lt_pow_right (by decide) hi)
    have hdvd' : 2 ^ k ∣ c % 2 ^ 32 :=
      (Nat.dvd_mod_iff (Nat.pow_dvd_pow 2 (by omega))).mpr hdvd
    refine Or.inl ⟨?_, ?_, ?_, ?_, ?_, ?_, ?_, ⟨e, ?_, ?_⟩, fun hpos => ?_⟩
    · change shift (2 ^ m) % 2 ^ 8 ≤ shift (2 ^ k) % 2 ^ 8
      rwa [hchunkShift, hpageShift]
    · change 0 < shift (2 ^ k) % 2 ^ 8
      omega
    · change shift (2 ^ k) % 2 ^ 8 ≤ shift (2 ^ m) % 2 ^ 8 + 5
      rwa [hchunkShift, hpageShift]
    · change shift (2 ^ k) % 2 ^ 8 < 32
      rwa [hpageShift]
    · change 2 ^ k % 2 ^ 32 = 2 ^ (shift (2 ^ k) % 2 ^ 8)
      rw [hpageShift, hpow k hk]
    · change c % 2 ^ 32 = (c % 2 ^ 32) >>> (shift (2 ^ k) % 2 ^ 8) * 2 ^ (shift (2 ^ k) % 2 ^ 8)
      rw [hpageShift, Nat.shiftRight_eq_div_pow, Nat.div_mul_cancel hdvd']
    · change (c % 2 ^ 32) >>> (shift (2 ^ k) % 2 ^ 8) ≤ 256
      rw [hpageShift, Nat.shiftRight_eq_div_pow]
      exact Nat.le_trans (Nat.div_le_div_right (Nat.mod_le ..)) hpages
    · change e ≤ shift (2 ^ k) % 2 ^ 8
      rwa [hpageShift]
    · change max (max a maxAlignment) maxAlignment % 2 ^ 32 = 2 ^ e
      rw [Nat.max_eq_left (Nat.le_max_right ..), halign, hpow e (by omega)]
    · rw [hdepth] at hpos ⊢
      change fillSlots (2 ^ k) 64 (smallestChunk (2 ^ m) 64 (2 ^ k)) = _
      obtain ⟨d, rfl⟩ : ∃ d, k = m + d + 1 := ⟨k - m - 1, by omega⟩
      have hsub : m + d + 1 - m = d + 1 := by omega
      rw [hsub] at hdepth ⊢
      rw [smallestChunk_pow (by omega), fillSlots_pow (by omega), List.range'_eq_map_range,
        List.map_map]
      refine List.map_congr_left fun i hi => ?_
      have hi := List.mem_range.mp hi
      have hsub : m + d + 1 - (m + i) = d + 1 - i := by omega
      have hsmall : 2 ^ (d + 1 - i) - 1 < 2 ^ 8 := by
        have : 2 ^ (d + 1 - i) < 2 ^ 8 := Nat.pow_lt_pow_right (by decide) (by omega)
        omega
      have hchunk : (fastCreate c (max a maxAlignment) (2 ^ (m + d + 1)) (2 ^ m)).chunkSize i =
          2 ^ (m + i) := by
        change 2 ^ (shift (2 ^ m) % 2 ^ 8 + i) = _
        rw [hchunkShift]
      rw [Function.comp, Settings.slotAt, Settings.chunkCount, hchunk, hdepth, hsub,
        hpow _ (by omega), Nat.mod_eq_of_lt hsmall]
  · refine Or.inr ⟨?_, ?_, ?_⟩
    · exact Nat.mod_eq_zero_of_dvd (Nat.pow_dvd_pow 2 (by omega))
    · change 32 ≤ shift (2 ^ k) % 2 ^ 8
      omega
    · exact Nat.mod_eq_zero_of_dvd (Nat.dvd_trans (Nat.pow_dvd_pow 2 (by omega)) hdvd)

/-- The invariant of an empty pool. -/
theorem fastCreate_inv {c a p q : ℕ} (hvalid : (fastCreate c a p q).Valid) :
    (fastCreate c a p q).Inv [] := by
  refine ⟨⟨hvalid, holds_init _, List.Perm.nil, ?_, ?_, ?_, fun _ => List.nodup_nil, ?_⟩, ?_⟩
  · exact fun a ha => nomatch ha
  · exact fun b hb => nomatch hb
  · exact fun ref href => nomatch href.mem
  · exact fun q ref => ⟨(nomatch ·), fun hr => nomatch hr.1.mem⟩
  · exact fun b hb => nomatch hb

/-- The invariant of a created pool, and whether its chunks are smaller than its pages. -/
theorem create_inv {clusterSize pageAlignment pageSize minChunkSize : UInt64} {pool : Pool}
    (h : create clusterSize pageAlignment pageSize minChunkSize = some pool) :
    pool.Inv [] ∧ (0 < pool.depth ↔ minChunkSize < pageSize) := by
  obtain ⟨k, m, haccepted, rfl⟩ := create_accepted h
  obtain ⟨hvalid, hdepth⟩ := haccepted.valid
  refine ⟨fastCreate_inv hvalid, ?_⟩
  rw [hdepth, UInt64.lt_iff_toNat_lt, haccepted.pageSize, haccepted.minChunkSize,
    Nat.pow_lt_pow_iff_right (by decide)]
  omega

end Njs.Mp
