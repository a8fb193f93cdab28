import Njs.Lvlhsh.Invariant

/-!
# Finding and deleting

Both operations walk to the one slot that the hash selects. Deletion frees every bucket
and every level that it empties.
-/

namespace Njs.Lvlhsh

open Lib

variable {κ α : Type} [DecidableEq κ] {keyOf : α → κ} {q : Query κ α} {k : κ}

/-! ## Finding -/

theorem bucketFind_spec (hk : q.key = some k) {chain : List (Bucket α)} (hok : ∀ b ∈ chain, b.Ok) :
    (∃ v, bucketFind keyOf q chain = some (some v) ∧ (q.keyHash, v) ∈ chainEntries chain ∧
      keyOf v = k) ∨
    (bucketFind keyOf q chain = some none ∧ ∀ e ∈ chainEntries chain, ¬Matches keyOf q e) := by
  induction chain with
  | nil => exact Or.inr ⟨rfl, by simp⟩
  | cons b chain ih =>
    obtain ⟨hb, hchain⟩ := List.forall_mem_cons.mp hok
    simp only [bucketFind, cellFind_eq 0 b.cells _ _ none]
    rcases @Bucket.Ok.cellSearch _ _ _ keyOf _ _ hk _ hb 0 none with
      ⟨pre, v, post, hcells, hlt, hv, heq⟩ | ⟨e, vacant', heq, hno, -⟩
    · refine Or.inl ⟨v, by rw [heq]; rfl, ?_, hv⟩
      rw [chainEntries_cons, hb.entries_eq, hcells, take_occupied_append hlt]
      simp
    · rw [heq]
      rcases ih hchain with ⟨v, hfind, hmem, hv⟩ | ⟨hfind, hno'⟩
      · exact Or.inl ⟨v, hfind, by rw [chainEntries_cons]; exact List.mem_append_right _ hmem, hv⟩
      · exact Or.inr ⟨hfind, fun e he => (List.mem_append.mp he).elim (hno e) (hno' e)⟩

theorem slotFind_spec (hk : q.key = some k) {slot : Slot α} {shifts : List ℕ} {depth : ℕ}
    (hok : slot.Ok shifts depth) :
    (∃ v, slotFind keyOf q slot shifts (q.keyHash.toNat >>> depth) = some (some v) ∧
      (q.keyHash, v) ∈ slot.entries shifts ∧ keyOf v = k) ∨
    (slotFind keyOf q slot shifts (q.keyHash.toNat >>> depth) = some none ∧
      ∀ e ∈ slot.entries shifts, ¬Matches keyOf q e) := by
  induction slot generalizing shifts depth with
  | null => exact Or.inr ⟨rfl, by simp [Slot.entries]⟩
  | bucket chain =>
    obtain ⟨hne, hchain, -⟩ := hok
    have htag : isBucket (Slot.bucket chain).word = true := by
      obtain ⟨b, chain, rfl⟩ := List.exists_cons_of_ne_nil hne
      exact (hchain b (by simp)).word.isBucket
    rw [slotFind, if_pos htag]
    exact bucketFind_spec hk hchain
  | level word slots ih =>
    obtain ⟨hlevel, hpos⟩ := Slot.ok_level_iff.mp hok
    set s := shifts.headD 0 with hs
    have hlt := hlevel.word.lt
    set i := q.keyHash.toNat >>> depth % 2 ^ s with hi
    have hfind : slotFind keyOf q (.level word slots) shifts (q.keyHash.toNat >>> depth) =
        slotFind keyOf q (slots i) shifts.tail (q.keyHash.toNat >>> (depth + s)) := by
      rw [slotFind, if_neg (by rw [hlevel.word.not_isBucket]; exact Bool.false_ne_true)]
      simp only [← hs, and_levelMask _ (by omega : s < 64), ← hi, Nat.shiftRight_add]
    rw [hfind]
    rcases ih i (hlevel.slot_ok i) with ⟨v, hv, hmem, hkey⟩ | ⟨hv, hno⟩
    · refine Or.inl ⟨v, hv, ?_, hkey⟩
      exact List.mem_flatMap.mpr ⟨i, List.mem_range.mpr (Nat.mod_lt _ (Nat.two_pow_pos _)), hmem⟩
    · exact Or.inr ⟨hv, not_matches_of_slot hlevel.selects hno⟩

/-! ## Deleting -/

/-- What a deletion returns and leaves: the entry with the key is gone, if there was
one, and every other entry is still there. -/
def Deleted (keyOf : α → κ) (q : Query κ α) (k : κ) (es : List (UInt32 × α)) (status : Status)
    (value : Option α) (es' : List (UInt32 × α)) : Prop :=
  (∃ v, status = .ok ∧ value = some v ∧ keyOf v = k ∧ es.Perm ((q.keyHash, v) :: es')) ∨
    (status = .declined ∧ value = q.value ∧ es.Perm es' ∧ ∀ e ∈ es, ¬Matches keyOf q e)

/-- The bucket that is left when one of several entries is deleted. -/
private theorem bucketOk_delete {b : Bucket α} (hb : b.Ok) {pre post : List (Cell α)} {v : α}
    {key : UInt32} (hcells : b.cells = pre ++ ⟨some v, key⟩ :: post)
    (hone : bucketEntries b.word ≠ 1) :
    BucketOk (bucketEntries b.word - 1) (bucketAddress b.word)
      ⟨countDec b.word, pre ++ ⟨none, key⟩ :: post⟩ := by
  have hpos := hb.pos
  refine ⟨hb.word.countDec (by omega), by omega, ?_, ?_⟩
  · rw [← hb.cells_length, hcells]
    simp
  · have hle := hb.le_occupied
    rw [hcells, occupied_append, List.length_append, occupied_cons_some, List.length_cons] at hle
    rw [occupied_append, List.length_append, occupied_cons_none]
    omega

theorem bucketDelete_spec (hk : q.key = some k) {chain : List (Bucket α)}
    (hok : ∀ b ∈ chain, b.Ok) {h base : History Block} {frame : List Block}
    (hown : h.Owns base (chainBlocks chain ++ frame)) :
    Ends (bucketDelete keyOf q chain) h fun (status, value, chain') h' =>
      h'.Owns base (chainBlocks chain' ++ frame) ∧ (∀ b ∈ chain', b.Ok) ∧
        chain'.length ≤ chain.length ∧
        Deleted keyOf q k (chainEntries chain) status value (chainEntries chain') := by
  induction chain generalizing frame with
  | nil => exact .pure ⟨hown, by simp, le_refl _, Or.inr ⟨rfl, rfl, List.Perm.refl _, by simp⟩⟩
  | cons b chain ih =>
    obtain ⟨hb, hchain⟩ := List.forall_mem_cons.mp hok
    rcases @Bucket.Ok.cellSearch _ _ _ keyOf _ _ hk _ hb 0 none with
      ⟨pre, v, post, hcells, hlt, hv, heq⟩ | ⟨e, vacant', heq, hno, -⟩
    · have hfind : cellFind keyOf q b.cells (bucketEntries b.word) 0 =
          some (some (pre.length, v)) := by
        rw [cellFind_eq 0 _ _ _ none, heq]
        rfl
      obtain ⟨rest, hold, -, hnew⟩ :=
        @perm_replace α pre post (bucketEntries b.word) q.keyHash v v hlt
      rw [← hcells, ← hb.entries_eq] at hold
      refine .lift_bind hfind ?_
      simp only
      by_cases hone : bucketEntries b.word = 1
      · rw [if_pos hone]
        refine .bind (free_spec hown) fun _ h' hown' => .pure ⟨hown', hchain, Nat.le_succ _, ?_⟩
        obtain rfl : rest = [] := by
          have hlen := hold.length_eq
          rw [hb.entries_eq, List.length_take, Nat.min_eq_left hb.le_occupied, hone,
            List.length_cons] at hlen
          exact List.length_eq_zero_iff.mp (by omega)
        exact Or.inl ⟨v, rfl, rfl, hv, hold.append_right _⟩
      · rw [if_neg hone]
        have hkey : (b.cells.map Cell.key).getD pre.length 0 = q.keyHash := by
          rw [hcells]
          simp [List.getD]
        have hset : b.cells.set pre.length ⟨none, q.keyHash⟩ =
          pre ++ ⟨none, q.keyHash⟩ :: post := by
          rw [hcells, set_append_cons]
        have hb' := bucketOk_delete hb hcells hone
        rw [hkey, hset]
        refine .pure ⟨?_, List.forall_mem_cons.mpr ⟨hb'.ok, hchain⟩, le_refl _, ?_⟩
        · rw [chainBlocks_cons, hb'.word.bucketAddress]
          exact hown
        · refine Or.inl ⟨v, rfl, rfl, hv, ?_⟩
          rw [chainEntries_cons, chainEntries_cons, hb'.entries_eq]
          exact (hold.trans (hnew.symm.cons _)).append_right _
    · have hfind : cellFind keyOf q b.cells (bucketEntries b.word) 0 = some none := by
        rw [cellFind_eq 0 _ _ _ none, heq]
        rfl
      refine .lift_bind hfind ?_
      simp only
      have hown' : h.Owns base (chainBlocks chain ++ (⟨bucketAddress b.word, bucketSize⟩ ::
        frame)) :=
        hown.perm List.perm_middle.symm
      refine .bind (ih hchain hown') fun r h' hr => ?_
      obtain ⟨status, value, chain'⟩ := r
      obtain ⟨hown', hok', hlen, hdel⟩ := hr
      refine .pure ⟨hown'.perm List.perm_middle, List.forall_mem_cons.mpr ⟨hb, hok'⟩,
        Nat.succ_le_succ hlen, ?_⟩
      rw [chainEntries_cons, chainEntries_cons]
      rcases hdel with ⟨v, hst, hval, hv, hperm⟩ | ⟨hst, hval, hperm, hno'⟩
      · exact Or.inl ⟨v, hst, hval, hv, (hperm.append_left _).trans List.perm_middle⟩
      · exact Or.inr ⟨hst, hval, hperm.append_left _,
          fun e he => (List.mem_append.mp he).elim (hno e) (hno' e)⟩

omit [DecidableEq κ] in
/-- A deletion in one slot is a deletion in the level. -/
theorem Deleted.of_slot {es es' fs fs' rest : List (UInt32 × α)} {status : Status}
    {value : Option α} (h : Deleted keyOf q k fs status value fs') (hes : es.Perm (fs ++ rest))
    (hes' : es'.Perm (fs' ++ rest))
    (hno : (∀ e ∈ fs, ¬Matches keyOf q e) → ∀ e ∈ es, ¬Matches keyOf q e) :
    Deleted keyOf q k es status value es' := by
  rcases h with ⟨v, hst, hval, hv, hperm⟩ | ⟨hst, hval, hperm, hfs⟩
  · refine Or.inl ⟨v, hst, hval, hv, hes.trans ((hperm.append_right rest).trans ?_)⟩
    exact hes'.symm.cons _
  · exact Or.inr ⟨hst, hval, hes.trans ((hperm.append_right rest).trans hes'.symm), hno hfs⟩

omit [DecidableEq κ] in
theorem Deleted.subset {es es' : List (UInt32 × α)} {status : Status} {value : Option α}
    (h : Deleted keyOf q k es status value es') : es' ⊆ es := by
  rcases h with ⟨v, -, -, -, hperm⟩ | ⟨-, -, hperm, -⟩
  · exact fun e he => hperm.mem_iff.mpr (List.mem_cons_of_mem _ he)
  · exact fun e he => hperm.mem_iff.mpr he

private theorem ofChain_spec {chain chain' : List (Bucket α)} {shifts : List ℕ} {depth : ℕ}
    (hok : (Slot.bucket chain).Ok shifts depth) (hok' : ∀ b ∈ chain', b.Ok)
    (hlen : chain'.length ≤ chain.length) :
    (Slot.ofChain chain').Ok shifts depth ∧
      (Slot.ofChain chain').blocks shifts = chainBlocks chain' ∧
      (Slot.ofChain chain').entries shifts = chainEntries chain' := by
  cases chain' with
  | nil => exact ⟨trivial, rfl, rfl⟩
  | cons b chain' =>
    refine ⟨⟨by simp, hok', fun hlast => ?_⟩, rfl, rfl⟩
    have hone := hok.2.2 hlast
    rw [List.length_cons] at hlen ⊢
    omega

theorem slotDelete_spec (hk : q.key = some k) {slot : Slot α} {shifts : List ℕ} {depth : ℕ}
    (hok : slot.Ok shifts depth) {h base : History Block} {frame : List Block}
    (hown : h.Owns base (slot.blocks shifts ++ frame)) :
    Ends (slotDelete keyOf q slot shifts (q.keyHash.toNat >>> depth)) h
      fun (status, value, slot') h' =>
        h'.Owns base (slot'.blocks shifts ++ frame) ∧ slot'.Ok shifts depth ∧
          Deleted keyOf q k (slot.entries shifts) status value (slot'.entries shifts) := by
  induction slot generalizing shifts depth frame h with
  | null =>
    exact .pure ⟨hown, hok, Or.inr ⟨rfl, rfl, List.Perm.refl _, by simp [Slot.entries]⟩⟩
  | bucket chain =>
    have hchain := hok.2.1
    have htag : isBucket (Slot.bucket chain).word = true := by
      obtain ⟨b, chain, rfl⟩ := List.exists_cons_of_ne_nil hok.1
      exact (hchain b (by simp)).word.isBucket
    rw [slotDelete, if_pos htag]
    refine .bind (bucketDelete_spec hk hchain hown) fun r h' hr => ?_
    obtain ⟨status, value, chain'⟩ := r
    obtain ⟨hown', hok', hlen, hdel⟩ := hr
    obtain ⟨hslot, hblocks, hentries⟩ := ofChain_spec hok hok' hlen
    exact .pure ⟨hblocks ▸ hown', hslot, hentries ▸ hdel⟩
  | level word slots ih =>
    obtain ⟨hlevel, hpos⟩ := Slot.ok_level_iff.mp hok
    set s := shifts.headD 0 with hs
    set p := levelAddress word (levelMask s) with hp
    have hlt := hlevel.word.lt
    set i := q.keyHash.toNat >>> depth % 2 ^ s with hi
    have hi_lt : i < 2 ^ s := Nat.mod_lt _ (Nat.two_pow_pos _)
    have hno := @not_matches_of_slot _ shifts depth word slots _ keyOf q hlevel.selects
    rw [slotDelete, if_neg (by rw [hlevel.word.not_isBucket]; exact Bool.false_ne_true)]
    simp only [← hs, and_levelMask _ (by omega : s < 64), ← hi, ← Nat.shiftRight_add]
    by_cases hnull : (slots i).isNull = true
    · rw [if_pos hnull]
      refine .pure ⟨hown, hok, Or.inr ⟨rfl, rfl, List.Perm.refl _, hno ?_⟩⟩
      rw [← hs, ← hi]
      cases hslot : slots i with
      | null => simp [Slot.entries]
      | bucket chain => rw [hslot] at hnull; cases hnull
      | level word slots => rw [hslot] at hnull; cases hnull
    · rw [if_neg hnull]
      obtain ⟨others, hold, hnew⟩ := exists_entries_update_perm shifts word slots hi_lt
      obtain ⟨blocks, hbold, hbnew⟩ := exists_levelBlocks_update_perm shifts p slots hi_lt
      rw [hlevel.blocks_eq] at hown
      have hown' : h.Owns base ((slots i).blocks shifts.tail ++ (blocks ++ frame)) :=
        hown.perm ((hbold.append_right _).trans (by rw [List.append_assoc]))
      refine .bind (ih i (hlevel.slot_ok i) hown') fun r h' hr => ?_
      obtain ⟨status, value, slot'⟩ := r
      obtain ⟨hown', hslot, hdel⟩ := hr
      have hused := usedSlots_update slots hi_lt slot'
      rw [if_neg hnull] at hused
      have hsel : Selects depth s i (slot'.entries shifts.tail) :=
        fun e he => hlevel.selects i e (hdel.subset he)
      have hdel' : ∀ word', Deleted keyOf q k ((Slot.level word slots).entries shifts) status value
          ((Slot.level word' (Function.update slots i slot')).entries shifts) :=
        fun word' => hdel.of_slot hold (hnew word' slot') hno
      have hown'' : h'.Owns base (levelBlocks shifts p (Function.update slots i slot') ++ frame) :=
        hown'.perm (((hbnew slot').append_right frame).trans (by rw [List.append_assoc])).symm
      simp only
      by_cases hnull' : slot'.isNull = true
      · rw [if_pos hnull'] at hused ⊢
        have hword := hlevel.word.countDec hpos
        rw [show usedSlots slots (2 ^ s) - 1 =
          usedSlots (Function.update slots i slot') (2 ^ s) by omega] at hword
        have hlt' : usedSlots (Function.update slots i slot') (2 ^ s) < 2 ^ s := by
          have := usedSlots_le slots (2 ^ s)
          omega
        by_cases hempty : usedSlots (Function.update slots i slot') (2 ^ s) = 0
        · rw [if_pos ((hword.levelEntries_eq_zero_iff hlt').mpr hempty), hlevel.word.levelAddress]
          have hblocks := flatMap_eq_nil_of_usedSlots
            (f := fun slot : Slot α => slot.blocks shifts.tail) rfl hempty
          have hentries := flatMap_eq_nil_of_usedSlots
            (f := fun slot : Slot α => slot.entries shifts.tail) rfl hempty
          rw [levelBlocks, ← hs, hblocks, ← Nat.one_shiftLeft] at hown''
          have hown3 : h'.Owns base (⟨p, 1 <<< s * 8⟩ :: frame) := hown''
          refine .bind (free_spec hown3) fun _ h'' hown4 => .pure ⟨hown4, trivial, ?_⟩
          have hdel0 := hdel' word
          rwa [show (Slot.level word (Function.update slots i slot')).entries shifts = [] from
            hentries] at hdel0
        · rw [if_neg (mt (hword.levelEntries_eq_zero_iff hlt').mp hempty)]
          have hlevel' := hlevel.update hslot hsel hword
          refine .pure ⟨?_, hlevel'.ok (Nat.pos_of_ne_zero hempty), hdel' _⟩
          rw [hlevel'.blocks_eq]
          exact hown''
      · rw [if_neg hnull'] at hused ⊢
        have hsame : usedSlots (Function.update slots i slot') (2 ^ s) =
          usedSlots slots (2 ^ s) := by
          omega
        have hlevel' := hlevel.update hslot hsel (hsame ▸ hlevel.word)
        refine .pure ⟨?_, hlevel'.ok (hsame ▸ hpos), hdel' _⟩
        rw [hlevel'.blocks_eq]
        exact hown''

end Njs.Lvlhsh
