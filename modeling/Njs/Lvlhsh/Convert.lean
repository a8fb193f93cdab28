import Njs.Lvlhsh.Invariant

/-!
# Converting a bucket to a level

A full bucket is split: its ten entries move to new buckets of a new level. While it is
being filled, every bucket of the level is compact and, having fewer than all of the ten
entries, never full; so no chains, no deeper levels and no tests of keys occur. If an
allocation is refused, everything allocated so far is freed again.
-/

namespace Njs.Lvlhsh

open Lib

variable {κ α : Type}

/-! ## New buckets -/

theorem newBucket_spec {A : Allocator α} {q : Query κ α} {w : α} (hw : q.value = some w)
    {h base : History Block} {bs : List Block} (hown : h.Owns base bs) :
    Ends (newBucket A q) h fun r h' => match r with
      | none => h'.Owns base bs ∧ base.refusals < h'.refusals
      | some b => h'.Owns base (⟨bucketAddress b.word, bucketSize⟩ :: bs) ∧
          b.Ok ∧ bucketEntries b.word = 1 ∧ ∃ cells, b.cells = ⟨some w, q.keyHash⟩ :: cells := by
  refine .bind (alloc_spec hown) fun r h' hr => ?_
  cases r with
  | none => exact .pure hr
  | some r =>
    obtain ⟨p, stale⟩ := r
    obtain ⟨hown', hp⟩ := hr
    have hb := bucketOk_new hp q.keyHash w stale
    simp only [hw]
    refine .pure ⟨?_, hb.ok, hb.word.bucketEntries, _, rfl⟩
    rw [hb.word.bucketAddress]
    exact hown'

/-- The entries of a new bucket. -/
theorem entries_of_cells {b : Bucket α} {w : α} {key : UInt32} {cells : List (Cell α)}
    (hone : bucketEntries b.word = 1) (hcells : b.cells = ⟨some w, key⟩ :: cells) :
    b.entries = [(key, w)] := by
  rw [Bucket.entries, hone, hcells, occupied_cons_some]
  rfl

/-! ## Compact buckets -/

/-- All entries of a compact bucket lie in its first cells. -/
def Bucket.IsCompact (b : Bucket α) : Prop :=
  (occupied (b.cells.take (bucketEntries b.word))).length = bucketEntries b.word

/-- A compact bucket that is not full takes one more entry behind the others. -/
theorem chainAppend_spec {q : Query κ α} {w : α} (hw : q.value = some w) {b : Bucket α} (hb : b.Ok)
    (hcompact : b.IsCompact) (hlt : bucketEntries b.word < bucketEnd) :
    ∃ b', chainAppend q [b] = some [b'] ∧ b'.Ok ∧ b'.IsCompact ∧
      bucketAddress b'.word = bucketAddress b.word ∧
      b'.entries.Perm ((q.keyHash, w) :: b.entries) := by
  set n := bucketEntries b.word with hn
  have hlen : n < b.cells.length := by rw [hb.cells_length]; exact hlt
  obtain ⟨e, post, hsplit⟩ : ∃ e post, b.cells = b.cells.take n ++ e :: post := by
    refine ⟨b.cells[n], b.cells.drop (n + 1), ?_⟩
    rw [← List.drop_eq_getElem_cons hlen, List.take_append_drop]
  have hpre : (b.cells.take n).length = n := by
    rw [List.length_take, Nat.min_eq_left hlen.le]
  have hset : b.cells.set n ⟨some w, q.keyHash⟩ =
    b.cells.take n ++ ⟨some w, q.keyHash⟩ :: post := by
    conv_lhs => rw [hsplit]
    conv_lhs => arg 2; rw [← hpre]
    exact set_append_cons ..
  have hvacant : IsVacant n (b.cells.take n) e := ⟨hcompact.le, Or.inr hcompact⟩
  have hword := hb.word.countInc hlt
  set b' : Bucket α := ⟨countInc b.word, b.cells.take n ++ ⟨some w, q.keyHash⟩ :: post⟩ with hb'
  have hok : BucketOk (n + 1) (bucketAddress b.word) b' := by
    refine ⟨hword, Nat.succ_pos n, ?_, ?_⟩
    · rw [← hb.cells_length, hb', hsplit]
      simp [hpre]
    · exact le_occupied_of_isVacant hvacant (hsplit ▸ hb.le_occupied)
  refine ⟨b', ?_, hok.ok, ?_, hword.bucketAddress, ?_⟩
  · rw [chainAppend]
    simp only [← hn, if_pos hlt, hw, hset, hb']
  · rw [Bucket.IsCompact, hword.bucketEntries]
    have htake : b'.cells.take (n + 1) = b.cells.take n ++ [⟨some w, q.keyHash⟩] := by
      rw [hb', List.take_append, hpre, Nat.add_sub_cancel_left, List.take_of_length_le (by omega)]
      rfl
    rw [htake, occupied_append, List.length_append, hcompact]
    rfl
  · rw [hok.entries_eq, hb.entries_eq, ← hn]
    conv_rhs => rw [hsplit]
    exact perm_of_isVacant hvacant

/-! ## Filling a level -/

/-- A level that is being filled with the entries of a bucket. -/
structure Filling (shifts : List ℕ) (depth : ℕ) (p word : UInt64) (slots : ℕ → Slot α)
    (es : List (UInt32 × α)) : Prop where
  level : LevelOk shifts depth p word slots
  compact : ∀ i, slots i = .null ∨ ∃ b, slots i = .bucket [b] ∧ b.IsCompact
  entries_perm : ((Slot.level word slots).entries shifts).Perm es

section Filling

variable {shifts : List ℕ} {depth : ℕ} {p word : UInt64} {slots : ℕ → Slot α}
  {es : List (UInt32 × α)} {A : Allocator α} {q : Query κ α} {w : α} {h base : History Block}
  {frame : List Block}

/-- One more entry in one slot. -/
private theorem Filling.update (hf : Filling shifts depth p word slots es) {i : ℕ}
    (hi : i < 2 ^ shifts.headD 0) {b : Bucket α} {word' : UInt64} {key : UInt32}
    (hsel : key.toNat >>> depth % 2 ^ shifts.headD 0 = i) (hb : b.Ok) (hcompact : b.IsCompact)
    (hperm : b.entries.Perm ((key, w) :: (slots i).entries shifts.tail))
    (hword : LevelWord (shifts.headD 0) word'
      (usedSlots (Function.update slots i (.bucket [b])) (2 ^ shifts.headD 0)) p) :
    Filling shifts depth p word' (Function.update slots i (.bucket [b])) ((key, w) :: es) := by
  have hentries := Slot.entries_singleton b shifts.tail
  refine ⟨hf.level.update ⟨by simp, by simpa using hb, fun _ => rfl⟩ ?_ hword, fun j => ?_, ?_⟩
  · intro e he
    rw [hentries] at he
    rcases List.mem_cons.mp (hperm.mem_iff.mp he) with rfl | he
    · exact hsel
    · exact hf.level.selects i e he
  · by_cases hj : j = i
    · subst hj
      exact Or.inr ⟨b, Function.update_self .., hcompact⟩
    · rw [Function.update_of_ne hj]
      exact hf.compact j
  · obtain ⟨rest, hold, hnew⟩ := exists_entries_update_perm shifts word slots hi
    refine (hnew word' _).trans ?_
    rw [hentries]
    exact (hperm.append_right rest).trans ((hold.symm.trans hf.entries_perm).cons _)

theorem levelConvertionInsert_spec (hf : Filling shifts depth p word slots es)
    (hlen : es.length < bucketEnd) (hw : q.value = some w)
    (convert : Bucket α → Memory (Option (UInt64 × (ℕ → Slot α))))
    (insert : Query κ α → UInt64 → (ℕ → Slot α) → ℕ → Memory (Inserted α)) (rest : List ℕ)
    (hown : h.Owns base (levelBlocks shifts p slots ++ frame)) :
    Ends (levelConvertionInsert A (shifts.headD 0) (bucketConvertionInsert A convert insert rest)
        q word slots (q.keyHash.toNat >>> depth)) h fun (status, word', slots') h' =>
      h'.Owns base (levelBlocks shifts p slots' ++ frame) ∧
        ((status = .ok ∧ Filling shifts depth p word' slots' ((q.keyHash, w) :: es)) ∨
          (status = .error ∧ base.refusals < h'.refusals ∧
              Filling shifts depth p word' slots' es)) := by
  set s := shifts.headD 0 with hs
  have hs61 := hf.level.word.lt
  set i := q.keyHash.toNat >>> depth % 2 ^ s with hi
  have hi_lt : i < 2 ^ s := Nat.mod_lt _ (Nat.two_pow_pos _)
  obtain ⟨blocks, hbold, hbnew⟩ := exists_levelBlocks_update_perm shifts p slots hi_lt
  simp only [levelConvertionInsert, and_levelMask _ (by omega : s < 64), ← hi]
  rcases hf.compact i with hslot | ⟨b, hslot, hcompact⟩
  · simp only [hslot]
    refine .bind (newBucket_spec hw hown) fun r h' hr => ?_
    cases r with
    | none => exact .pure ⟨hr.1, Or.inr ⟨rfl, hr.2, hf⟩⟩
    | some b =>
      obtain ⟨hown', hb, hone, cells, hcells⟩ := hr
      have hused := usedSlots_update slots hi_lt (.bucket [b])
      simp only [hslot, Slot.isNull, if_true, Bool.false_eq_true, if_false] at hused
      have hle := usedSlots_le (Function.update slots i (.bucket [b])) (2 ^ s)
      refine .pure ⟨?_, Or.inl ⟨rfl, hf.update hi_lt rfl hb ?_ ?_ ?_⟩⟩
      · refine hown'.perm ?_
        rw [hslot] at hbold
        exact ((hbold.append_right frame).cons _).trans ((hbnew (.bucket [b])).append_right
          frame).symm
      · rw [Bucket.IsCompact, hone, hcells]
        rfl
      · rw [entries_of_cells hone hcells, hslot]
        exact List.Perm.refl _
      · rw [← hs, show usedSlots (Function.update slots i (.bucket [b])) (2 ^ s) =
          usedSlots slots (2 ^ s) + 1 by omega]
        exact hf.level.word.countInc (by rw [← hs]; omega)
  · have hok := hf.level.slot_ok i
    rw [hslot] at hok
    have hb : b.Ok := hok.2.1 b (by simp)
    have hlt : bucketEntries b.word < bucketEnd := by
      obtain ⟨rest, hold, -⟩ := exists_entries_update_perm shifts word slots hi_lt
      have hle := (hold.symm.trans hf.entries_perm).length_eq
      rw [hslot, List.length_append, Slot.entries_singleton, hb.entries_eq, List.length_take,
        Nat.min_eq_left hb.le_occupied] at hle
      omega
    obtain ⟨b', happend, hb', hcompact', haddr, hperm⟩ := chainAppend_spec hw hb hcompact hlt
    simp only [hslot, bucketConvertionInsert, happend, pure_bind]
    have hused := usedSlots_update slots hi_lt (.bucket [b'])
    simp only [hslot, Slot.isNull, Bool.false_eq_true, if_false] at hused
    have hentries : (slots i).entries shifts.tail = b.entries := by
      rw [hslot, Slot.entries_singleton]
    refine .pure ⟨?_, Or.inl ⟨rfl, hf.update hi_lt rfl hb' hcompact' (hentries ▸ hperm) ?_⟩⟩
    · have hblocks : (Slot.bucket [b']).blocks shifts.tail = (slots i).blocks shifts.tail := by
        rw [hslot, Slot.blocks, Slot.blocks, chainBlocks_cons, chainBlocks_cons, haddr]
      have hnew := hbnew (.bucket [b'])
      rw [hblocks] at hnew
      exact hown.perm ((hbold.trans hnew.symm).append_right frame)
    · rw [← hs, show usedSlots (Function.update slots i (.bucket [b'])) (2 ^ s) =
        usedSlots slots (2 ^ s) by omega]
      exact hf.level.word

/-- The entries of the cells that are left move to the level, or an allocation was
refused on the way. -/
theorem convertLoop_spec {cells : List (Cell α)} (hcells : ∀ e ∈ cells, e.value ≠ none)
    (hf : Filling shifts depth p word slots es) (hlen : es.length + cells.length ≤ bucketEnd)
    (convert : Bucket α → Memory (Option (UInt64 × (ℕ → Slot α))))
    (insert : Query κ α → UInt64 → (ℕ → Slot α) → ℕ → Memory (Inserted α)) (rest : List ℕ)
    (hown : h.Owns base (levelBlocks shifts p slots ++ frame)) :
    Ends (convertLoop (levelConvertionInsert A (shifts.headD 0)
        (bucketConvertionInsert A convert insert rest)) depth cells word slots) h
      fun (status, word', slots') h' => h'.Owns base (levelBlocks shifts p slots' ++ frame) ∧
        ((status = .ok ∧ ∃ es', es'.Perm (occupied cells ++ es) ∧
            Filling shifts depth p word' slots' es') ∨
          (status = .error ∧ base.refusals < h'.refusals ∧ ∃ es', Filling shifts depth p word'
              slots' es')) := by
  induction cells generalizing word slots es h with
  | nil => exact .pure ⟨hown, Or.inl ⟨rfl, es, List.Perm.refl _, hf⟩⟩
  | cons e cells ih =>
    obtain ⟨value, key⟩ := e
    obtain ⟨hvalue, hrest⟩ := List.forall_mem_cons.mp hcells
    obtain ⟨w, rfl⟩ := Option.ne_none_iff_exists'.mp hvalue
    rw [List.length_cons] at hlen
    rw [convertLoop]
    refine .bind (levelConvertionInsert_spec hf (by omega) rfl convert insert rest hown)
      fun r h' hr => ?_
    obtain ⟨status, word', slots'⟩ := r
    obtain ⟨hown', ⟨rfl, hf'⟩ | ⟨rfl, hrefuses, hf'⟩⟩ := hr
    · refine (ih hrest hf' (by rw [List.length_cons]; omega) hown').mono fun r h'' hr => ?_
      obtain ⟨hown'', ⟨hst, es', hperm, hf''⟩ | herr⟩ := hr
      · exact ⟨hown'', Or.inl ⟨hst, es', hperm.trans List.perm_middle, hf''⟩⟩
      · exact ⟨hown'', Or.inr herr⟩
    · exact .pure ⟨hown', Or.inr ⟨rfl, hrefuses, es, hf'⟩⟩

/-- `njs_lvlhsh_free_level` gives back the buckets of some slots. -/
theorem freeBuckets_spec (hf : Filling shifts depth p word slots es) (is : List ℕ)
    (hown : h.Owns base ((is.flatMap fun i => (slots i).blocks shifts.tail) ++ frame)) :
    Ends (freeBuckets slots is) h fun _ h' => h'.Owns base frame := by
  induction is generalizing h with
  | nil => exact .pure hown
  | cons i is ih =>
    rw [List.flatMap_cons, List.append_assoc] at hown
    simp only [freeBuckets]
    rcases hf.compact i with hslot | ⟨b, hslot, -⟩
    · simp only [hslot, Slot.isNull, if_true]
      rw [hslot] at hown
      exact ih hown
    · simp only [hslot, Slot.isNull, Bool.false_eq_true, if_false]
      rw [hslot] at hown
      exact .bind (free_spec hown) fun _ h' hown' => ih hown'

theorem freeLevel_spec (hf : Filling shifts depth p word slots es)
    (hown : h.Owns base (levelBlocks shifts p slots ++ frame)) :
    Ends (freeLevel p slots (2 ^ shifts.headD 0)) h fun _ h' => h'.Owns base frame := by
  have hown' : h.Owns base ((List.range (2 ^ shifts.headD 0)).flatMap
      (fun i => (slots i).blocks shifts.tail) ++ (⟨p, 2 ^ shifts.headD 0 * 8⟩ :: frame)) :=
    hown.perm List.perm_middle.symm
  exact .bind (freeBuckets_spec hf _ hown') fun _ h' hown' => free_spec hown'

end Filling

/-- A level without entries. -/
private theorem filling_empty {shifts : List ℕ} (depth : ℕ) {p : UInt64}
    (hp : 2 ^ shifts.headD 0 * 8 ∣ p.toNat) (hpos : 0 < shifts.headD 0)
    (hlt : shifts.headD 0 < 61) :
    Filling shifts depth p p (fun _ => .null : ℕ → Slot α) [] := by
  have hused : usedSlots (fun _ => .null : ℕ → Slot α) (2 ^ shifts.headD 0) = 0 :=
    List.countP_eq_zero.mpr fun _ _ => by simp [Slot.isNull]
  refine ⟨⟨by rw [hused]; exact .of_aligned hp hpos hlt, fun _ => trivial, fun i e he => ?_⟩,
    fun _ => Or.inl rfl, ?_⟩
  · cases he
  · rw [Slot.entries, flatMap_eq_nil_of_usedSlots
      (f := fun slot : Slot α => slot.entries shifts.tail) rfl hused]

/-- Converting a full bucket gives a level with the same entries, or leaves everything
as it was. -/
theorem convertBucketToLevel_spec [DecidableEq κ] (keyOf : α → κ) {A : Allocator α}
    {shifts : List ℕ} {depth : ℕ} (hpos : 0 < shifts.headD 0) (hlt : shifts.headD 0 < 61)
    {b : Bucket α} (hb : b.Ok) (hfull : b.IsFull) {h base : History Block} {frame : List Block}
    (hown : h.Owns base (⟨bucketAddress b.word, bucketSize⟩ :: frame)) :
    Ends (convertBucketToLevel keyOf A shifts depth b) h fun r h' => match r with
      | none => h'.Owns base (⟨bucketAddress b.word, bucketSize⟩ :: frame) ∧ base.refusals <
          h'.refusals
      | some (word, slots) => (Slot.level word slots).Ok shifts depth ∧
          ((Slot.level word slots).entries shifts).Perm b.entries ∧
          h'.Owns base ((Slot.level word slots).blocks shifts ++ frame) := by
  obtain ⟨s, rest, rfl⟩ : ∃ s rest, shifts = s :: rest := by
    cases shifts with
    | nil => cases hpos
    | cons s rest => exact ⟨s, rest, rfl⟩
  have hentries : b.entries = occupied b.cells := by
    rw [hb.entries_eq, hfull.1, List.take_of_length_le hfull.2.le]
  have hcells : ∀ e ∈ b.cells, e.value ≠ none := by
    have hall := List.filterMap_length_eq_length.mp (hfull.2.trans hb.cells_length.symm)
    intro e he hnone
    have hsome := hall e he
    rw [Cell.entry?, hnone] at hsome
    cases hsome
  rw [convertBucketToLevel]
  refine .bind (alloc_spec hown) fun r h' hr => ?_
  cases r with
  | none => exact .pure hr
  | some r =>
    obtain ⟨p, stale⟩ := r
    obtain ⟨hown', hp⟩ := hr
    rw [Nat.one_shiftLeft] at hown' hp
    have hempty : Filling (s :: rest) depth p p (fun _ => .null : ℕ → Slot α) [] :=
      filling_empty depth hp hpos hlt
    have hblocks : levelBlocks (s :: rest) p (fun _ => .null : ℕ → Slot α) =
        [⟨p, 2 ^ s * 8⟩] := by
      simp [levelBlocks, Slot.blocks]
    rw [← List.singleton_append, ← hblocks] at hown'
    have htake : b.cells.take bucketEnd = b.cells := List.take_of_length_le hb.cells_length.le
    have hsum : ([] : List (UInt32 × α)).length + b.cells.length ≤ bucketEnd := by
      rw [List.length_nil, Nat.zero_add]
      exact hb.cells_length.le
    simp only [htake]
    refine .bind (convertLoop_spec hcells hempty hsum _ _ rest hown') fun r h'' hr => ?_
    obtain ⟨status, word, slots⟩ := r
    obtain ⟨hown'', ⟨rfl, es', hperm, hf⟩ | ⟨rfl, hrefuses, es', hf⟩⟩ := hr
    · have hused : 0 < usedSlots slots (2 ^ s) := by
        refine Nat.pos_of_ne_zero fun hzero => ?_
        have hnone := hf.entries_perm.length_eq
        rw [Slot.entries, List.headD_cons, List.tail_cons, flatMap_eq_nil_of_usedSlots
          (f := fun slot : Slot α => slot.entries rest) rfl hzero, hperm.length_eq,
          List.append_nil, ← hentries, hb.entries_eq, List.length_take,
          Nat.min_eq_left hb.le_occupied] at hnone
        exact hb.pos.ne hnone
      refine .bind (free_spec (hown''.perm List.perm_middle)) fun _ h3 hown3 => .pure ?_
      refine ⟨hf.level.ok hused, ?_, hf.level.blocks_eq ▸ hown3⟩
      rw [hentries]
      exact hf.entries_perm.trans (hperm.trans (by rw [List.append_nil]))
    · rw [if_neg (by simp), Nat.one_shiftLeft]
      refine .bind (freeLevel_spec hf hown''.rebase) fun _ h3 hown3 => .pure ⟨?_, ?_⟩
      · exact hown3.of_suffix hown''.base_suffix
      · exact lt_of_lt_of_le hrefuses (History.refusals_mono hown3.base_suffix)

end Njs.Lvlhsh
