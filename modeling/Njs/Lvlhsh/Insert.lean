import Njs.Lvlhsh.Convert

/-!
# Inserting

An insertion walks to the slot that the hash selects and splits full buckets on the way
until there is room for the new entry. Splits that were completed stay when a later
allocation is refused; they do not change the set of entries.
-/

namespace Njs.Lvlhsh

open Lib

variable {κ α : Type} {keyOf : α → κ} {A : Allocator α} {q : Query κ α} {k : κ} {w : α}
  {refused : Prop}

/-- What an insertion returns and leaves. An entry with the key is only replaced when
this is asked for; otherwise the new entry is added, or an allocation was refused and
the entries are the same. -/
def DidInsert (keyOf : α → κ) (refused : Prop) (q : Query κ α) (k : κ) (w : α)
    (es : List (UInt32 × α)) (status : Status) (value : Option α) (es' : List (UInt32 × α)) :
    Prop :=
  (∃ v rest, es.Perm ((q.keyHash, v) :: rest) ∧ keyOf v = k ∧ value = some v ∧
    ((q.replace = false ∧ status = .declined ∧ es'.Perm es) ∨
      (q.replace = true ∧ status = .ok ∧ es'.Perm ((q.keyHash, w) :: rest)))) ∨
  ((∀ e ∈ es, ¬Matches keyOf q e) ∧ value = q.value ∧
    ((status = .ok ∧ es'.Perm ((q.keyHash, w) :: es)) ∨
      (status = .error ∧ refused ∧ es'.Perm es)))

/-- An insertion into one slot is an insertion into the level. -/
theorem DidInsert.of_slot {es es' fs fs' rest : List (UInt32 × α)} {status : Status}
    {value : Option α} (h : DidInsert keyOf refused q k w fs status value fs')
    (hes : es.Perm (fs ++ rest)) (hes' : es'.Perm (fs' ++ rest))
    (hno : (∀ e ∈ fs, ¬Matches keyOf q e) → ∀ e ∈ es, ¬Matches keyOf q e) :
    DidInsert keyOf refused q k w es status value es' := by
  rcases h with ⟨v, others, hfs, hv, hval, hrep⟩ | ⟨hnone, hval, hadd⟩
  · refine Or.inl ⟨v, others ++ rest, hes.trans (hfs.append_right rest), hv, hval, ?_⟩
    rcases hrep with ⟨hr, hst, hperm⟩ | ⟨hr, hst, hperm⟩
    · exact Or.inl ⟨hr, hst, hes'.trans ((hperm.append_right rest).trans hes.symm)⟩
    · exact Or.inr ⟨hr, hst, hes'.trans (hperm.append_right rest)⟩
  · refine Or.inr ⟨hno hnone, hval, ?_⟩
    rcases hadd with ⟨hst, hperm⟩ | ⟨hst, href, hperm⟩
    · exact Or.inl ⟨hst, hes'.trans ((hperm.append_right rest).trans (hes.symm.cons _))⟩
    · exact Or.inr ⟨hst, href, hes'.trans ((hperm.append_right rest).trans hes.symm)⟩

/-- Inserting into a table with the same entries. -/
theorem DidInsert.perm {es fs es' : List (UInt32 × α)} {status : Status} {value : Option α}
    (h : DidInsert keyOf refused q k w fs status value es') (hes : es.Perm fs) :
    DidInsert keyOf refused q k w es status value es' := by
  have hes' : es.Perm (fs ++ []) := by rwa [List.append_nil]
  exact h.of_slot hes' (by rw [List.append_nil]) fun hno e he => hno e (hes.mem_iff.mp he)

/-- New entries belong where the key led. -/
theorem DidInsert.selects {depth s i : ℕ} {es es' : List (UInt32 × α)} {status : Status}
    {value : Option α} (h : DidInsert keyOf refused q k w es status value es')
    (hi : q.keyHash.toNat >>> depth % 2 ^ s = i) (hes : Selects depth s i es) :
    Selects depth s i es' := by
  intro e he
  rcases h with ⟨v, others, hfs, -, -, ⟨-, -, hperm⟩ | ⟨-, -, hperm⟩⟩ |
    ⟨-, -, ⟨-, hperm⟩ | ⟨-, -, hperm⟩⟩
  · exact hes e (hperm.mem_iff.mp he)
  · rcases List.mem_cons.mp (hperm.mem_iff.mp he) with rfl | he
    · exact hi
    · exact hes e (hfs.mem_iff.mpr (List.mem_cons_of_mem _ he))
  · rcases List.mem_cons.mp (hperm.mem_iff.mp he) with rfl | he
    · exact hi
    · exact hes e he
  · exact hes e (hperm.mem_iff.mp he)

/-- The postcondition of an insertion below a pointer. -/
structure InsertedInto (keyOf : α → κ) (base : History Block) (q : Query κ α) (k : κ) (w : α)
    (shifts : List ℕ) (depth : ℕ) (frame : List Block) (slot : Slot α) (r : Inserted α)
    (h : History Block) : Prop where
  owns : h.Owns base (r.slot.blocks shifts ++ frame)
  ok : r.slot.Ok shifts depth
  not_null : r.slot.isNull = false
  did : DidInsert keyOf (base.refusals < h.refusals) q k w (slot.entries shifts) r.status r.value
    (r.slot.entries shifts)

variable [DecidableEq κ]

/-- Inserting into a chain, given what converting a bucket and inserting into the
resulting level do. -/
theorem bucketInsert_spec (hk : q.key = some k) (hw : q.value = some w) {shifts : List ℕ}
    (depth : ℕ) {chain : List (Bucket α)} (hok : (Slot.bucket chain).Ok shifts depth)
    {convert : Bucket α → Memory (Option (UInt64 × (ℕ → Slot α)))}
    {levelInsert : Query κ α → UInt64 → (ℕ → Slot α) → ℕ → Memory (Inserted α)}
    {frame : List Block} {h base : History Block}
    (hconvert : ∀ b : Bucket α, b.Ok → b.IsFull → 0 < shifts.headD 0 →
      h.Owns base (⟨bucketAddress b.word, bucketSize⟩ :: frame) → Ends (convert b) h fun r h' =>
        match r with
        | none => h'.Owns base (⟨bucketAddress b.word, bucketSize⟩ :: frame) ∧ base.refusals <
            h'.refusals
        | some (word, slots) => (Slot.level word slots).Ok shifts depth ∧
            ((Slot.level word slots).entries shifts).Perm b.entries ∧
            h'.Owns base ((Slot.level word slots).blocks shifts ++ frame))
    (hinsert : ∀ word slots h', (Slot.level word slots).Ok shifts depth →
      h'.Owns base ((Slot.level word slots).blocks shifts ++ frame) →
      Ends (levelInsert q word slots (q.keyHash.toNat >>> depth)) h'
        (InsertedInto keyOf base q k w shifts depth frame (.level word slots)))
    (hown : h.Owns base ((Slot.bucket chain).blocks shifts ++ frame)) :
    Ends (bucketInsert keyOf A convert levelInsert shifts q chain (q.keyHash.toNat >>> depth)) h
      (InsertedInto keyOf base q k w shifts depth frame (.bucket chain)) := by
  obtain ⟨hne, hchain, hlast⟩ := hok
  rcases @chainSearch_spec _ _ _ keyOf _ _ hk _ hchain with
    ⟨cpre, b, cpost, pre, v, post, hfound, heq⟩ | ⟨hno, hsearch⟩
  · refine .lift_bind heq ?_
    have hv : keyOf v = k := Option.some.inj (hfound.key_eq.symm.trans hk)
    obtain ⟨rest, chain', hset, hchain', hwords, hold, hnew⟩ := hfound.setCell hchain w
    simp only
    by_cases hreplace : q.replace = true
    · rw [if_pos hreplace, hw, hset]
      have hlen : chain'.length = chain.length := by
        simpa using congrArg List.length hwords
      have hblocks : chainBlocks chain' = chainBlocks chain := by
        have hmap : ∀ c : List (Bucket α), chainBlocks c =
            (c.map Bucket.word).map fun word => ⟨bucketAddress word, bucketSize⟩ := by
          intro c
          rw [List.map_map]
          rfl
        rw [hmap, hmap, hwords]
      refine .pure ⟨?_, ⟨?_, hchain', fun hs => hlen.trans (hlast hs)⟩, rfl,
        Or.inl ⟨v, rest, hold, hv, rfl, Or.inr ⟨hreplace, rfl, hnew⟩⟩⟩
      · exact (congrArg (fun bs => h.Owns base (bs ++ frame)) hblocks).mpr hown
      · rintro rfl
        exact hne (List.length_eq_zero_iff.mp hlen.symm)
    · rw [if_neg hreplace]
      exact .pure ⟨hown, ⟨hne, hchain, hlast⟩, rfl, Or.inl ⟨v, rest, hold, hv, rfl,
        Or.inl ⟨by simpa using hreplace, rfl, List.Perm.refl _⟩⟩⟩
  · rcases hsearch with ⟨cpre, b, cpost, pre, e, post, hvacant, heq⟩ | ⟨hfull, heq⟩
    · refine .lift_bind heq ?_
      obtain ⟨chain', hset, hchain', hlen, hblocks, hperm⟩ := hvacant.setCell hchain q.keyHash w
      simp only [hw, hset]
      refine .pure ⟨?_, ⟨?_, hchain', fun hs => hlen.trans (hlast hs)⟩, rfl,
        Or.inr ⟨hno, hw.symm, Or.inl ⟨rfl, hperm⟩⟩⟩
      · exact (congrArg (fun bs => h.Owns base (bs ++ frame)) hblocks).mpr hown
      · rintro rfl
        exact hne (List.length_eq_zero_iff.mp hlen.symm)
    · refine .lift_bind heq ?_
      simp only
      by_cases hs : shifts.headD 0 = 0
      · rw [if_neg (not_not.mpr hs)]
        refine .bind (newBucket_spec hw hown) fun r h' hr => ?_
        cases r with
        | none =>
          exact .pure ⟨hr.1, ⟨hne, hchain, hlast⟩, rfl,
            Or.inr ⟨hno, rfl, Or.inr ⟨rfl, hr.2, List.Perm.refl _⟩⟩⟩
        | some b =>
          obtain ⟨hown', hb, hone, cells, hcells⟩ := hr
          refine .pure ⟨?_, ⟨by simp, ?_, fun hs' => absurd hs hs'⟩, rfl,
            Or.inr ⟨hno, rfl, Or.inl ⟨rfl, ?_⟩⟩⟩
          · refine hown'.perm ?_
            rw [Slot.blocks, Slot.blocks, chainBlocks_append]
            exact (List.perm_append_singleton ..).symm.append_right frame
          · intro c hc
            rcases List.mem_append.mp hc with hc | hc
            · exact hchain c hc
            · exact List.mem_singleton.mp hc ▸ hb
          · rw [Slot.entries, Slot.entries, chainEntries_append, chainEntries_cons,
              entries_of_cells hone hcells]
            exact List.perm_append_singleton ..
      · rw [if_pos hs]
        obtain ⟨b, rfl⟩ := List.length_eq_one_iff.mp (hlast hs)
        simp only [List.getLast?_singleton]
        refine .bind (hconvert b (hchain b (by simp)) (hfull b (by simp)) (Nat.pos_of_ne_zero hs)
          hown) fun r h' hr => ?_
        cases r with
        | none =>
          exact .pure ⟨hr.1, ⟨hne, hchain, hlast⟩, rfl,
            Or.inr ⟨hno, rfl, Or.inr ⟨rfl, hr.2, List.Perm.refl _⟩⟩⟩
        | some r =>
          obtain ⟨word, slots⟩ := r
          obtain ⟨hlevel, hperm, hown'⟩ := hr
          refine (hinsert word slots h' hlevel hown').mono fun r h'' hr => ?_
          refine ⟨hr.owns, hr.ok, hr.not_null, hr.did.perm ?_⟩
          rw [Slot.entries_singleton]
          exact hperm.symm

omit [DecidableEq κ] in
/-- The new pointer of one slot of a level. -/
theorem InsertedInto.of_slot {shifts : List ℕ} {depth i : ℕ} {p word : UInt64}
    {slots : ℕ → Slot α} {frame blocks : List Block} {r : Inserted α} {h base : History Block}
    (hlevel : LevelOk shifts depth p word slots) (hi : i < 2 ^ shifts.headD 0)
    (hkey : q.keyHash.toNat >>> depth % 2 ^ shifts.headD 0 = i) (hnull : (slots i).isNull = false)
    (hblocks : ∀ slot, (levelBlocks shifts p (Function.update slots i slot)).Perm
      (slot.blocks shifts.tail ++ blocks))
    (hr : InsertedInto keyOf base q k w shifts.tail (depth + shifts.headD 0) (blocks ++ frame)
      (slots i) r h) :
    InsertedInto keyOf base q k w shifts depth frame (.level word slots)
      { r with slot := .level word (Function.update slots i r.slot) } h := by
  obtain ⟨rest, hold, hnew⟩ := exists_entries_update_perm shifts word slots hi
  have hused := usedSlots_update slots hi r.slot
  simp only [hnull, hr.not_null, Bool.false_eq_true, if_false] at hused
  have hsame : usedSlots (Function.update slots i r.slot) (2 ^ shifts.headD 0) =
      usedSlots slots (2 ^ shifts.headD 0) := by omega
  have hlevel' := hlevel.update hr.ok (hr.did.selects hkey (hlevel.selects i)) (hsame ▸ hlevel.word)
  refine ⟨?_, hlevel'.ok (hsame ▸ usedSlots_pos slots hi hnull), rfl,
    hr.did.of_slot hold (hnew word r.slot) ?_⟩
  · rw [hlevel'.blocks_eq]
    refine hr.owns.perm ?_
    rw [← List.append_assoc]
    exact ((hblocks r.slot).append_right frame).symm
  · exact fun hno => not_matches_of_slot hlevel.selects (hkey ▸ hno)

omit [DecidableEq κ] in
/-- A new bucket in a slot of a level that was not used. -/
theorem InsertedInto.of_null {shifts : List ℕ} {depth i : ℕ} {p word : UInt64}
    {slots : ℕ → Slot α} {frame : List Block} {h base : History Block}
    (hlevel : LevelOk shifts depth p word slots) (hi : i < 2 ^ shifts.headD 0)
    (hkey : q.keyHash.toNat >>> depth % 2 ^ shifts.headD 0 = i) (hnull : slots i = .null)
    {b : Bucket α} (hb : b.Ok) (hentries : b.entries = [(q.keyHash, w)])
    (hown : h.Owns base (⟨bucketAddress b.word, bucketSize⟩ ::
      (levelBlocks shifts p slots ++ frame))) :
    InsertedInto keyOf base q k w shifts depth frame (.level word slots)
      ⟨.ok, q.value, .level (countInc word) (Function.update slots i (.bucket [b]))⟩ h := by
  have hbentries : (Slot.bucket [b]).entries shifts.tail = [(q.keyHash, w)] := by
    rw [Slot.entries_singleton, hentries]
  obtain ⟨rest, hold, hnew⟩ := exists_entries_update_perm shifts word slots hi
  obtain ⟨blocks, hbold, hbnew⟩ := exists_levelBlocks_update_perm shifts p slots hi
  rw [hnull] at hold hbold
  have hused := usedSlots_update slots hi (.bucket [b])
  simp only [hnull, Slot.isNull, if_true, Bool.false_eq_true, if_false] at hused
  have hle := usedSlots_le (Function.update slots i (.bucket [b])) (2 ^ shifts.headD 0)
  have hword := hlevel.word.countInc (by omega)
  rw [show usedSlots slots (2 ^ shifts.headD 0) + 1 =
    usedSlots (Function.update slots i (.bucket [b])) (2 ^ shifts.headD 0) by omega] at hword
  have hsel : Selects depth (shifts.headD 0) i ((Slot.bucket [b]).entries shifts.tail) := by
    intro e he
    rw [hbentries] at he
    rw [List.mem_singleton.mp he]
    exact hkey
  have hslot : (Slot.bucket [b]).Ok shifts.tail (depth + shifts.headD 0) :=
    ⟨by simp, by simpa using hb, fun _ => rfl⟩
  have hlevel' := hlevel.update hslot hsel hword
  refine ⟨?_, hlevel'.ok (by omega), rfl, Or.inr ⟨?_, rfl, Or.inl ⟨rfl, ?_⟩⟩⟩
  · rw [hlevel'.blocks_eq]
    exact hown.perm (((hbold.append_right frame).cons _).trans
      ((hbnew (.bucket [b])).append_right frame).symm)
  · apply not_matches_of_slot hlevel.selects
    rw [hkey, hnull]
    simp [Slot.entries]
  · refine (hnew _ _).trans ?_
    rw [hbentries]
    exact hold.symm.cons _

/-! ## The whole tree -/

theorem levelInsert_spec (hk : q.key = some k) (hw : q.value = some w) {shifts : List ℕ}
    (hshifts : ∀ s ∈ shifts, s < 61) (depth : ℕ) {word : UInt64} {slots : ℕ → Slot α}
    (hok : (Slot.level word slots).Ok shifts depth) {h base : History Block} {frame : List Block}
    (hown : h.Owns base ((Slot.level word slots).blocks shifts ++ frame)) :
    Ends (levelInsert keyOf A shifts depth q word slots (q.keyHash.toNat >>> depth)) h
      (InsertedInto keyOf base q k w shifts depth frame (.level word slots)) := by
  induction shifts generalizing depth word slots h frame with
  | nil => exact absurd (Slot.ok_level_iff.mp hok).1.word.pos (lt_irrefl 0)
  | cons s shifts ih =>
    obtain ⟨hlevel, hpos⟩ := Slot.ok_level_iff.mp hok
    obtain ⟨hs, hshifts'⟩ := List.forall_mem_cons.mp hshifts
    set p := levelAddress word (levelMask ((s :: shifts).headD 0)) with hp
    set i := q.keyHash.toNat >>> depth % 2 ^ s with hi
    have hi_lt : i < 2 ^ s := Nat.mod_lt _ (Nat.two_pow_pos _)
    obtain ⟨blocks, hbold, hbnew⟩ := exists_levelBlocks_update_perm (s :: shifts) p slots hi_lt
    rw [hlevel.blocks_eq] at hown
    have hown' : h.Owns base ((slots i).blocks shifts ++ (blocks ++ frame)) :=
      hown.perm ((hbold.append_right _).trans (by rw [List.append_assoc]; rfl))
    have hslot_ok := hlevel.slot_ok i
    rw [levelInsert]
    simp only [and_levelMask _ (by omega : s < 64), ← hi, ← Nat.shiftRight_add]
    cases hslot : slots i with
    | null =>
      refine .bind (newBucket_spec hw hown) fun r h' hr => ?_
      cases r with
      | none =>
        refine .pure ⟨?_, hok, rfl, Or.inr ⟨?_, rfl, Or.inr ⟨rfl, hr.2, List.Perm.refl _⟩⟩⟩
        · rw [hlevel.blocks_eq]
          exact hr.1
        · apply not_matches_of_slot hlevel.selects
          rw [List.headD_cons, ← hi, hslot]
          simp [Slot.entries]
      | some b =>
        obtain ⟨hown'', hb, hone, cells, hcells⟩ := hr
        exact .pure (.of_null hlevel hi_lt rfl hslot hb (entries_of_cells hone hcells) hown'')
    | bucket chain =>
      rw [hslot] at hslot_ok hown'
      have htag : isBucket (Slot.bucket chain).word = true := by
        obtain ⟨b, chain, rfl⟩ := List.exists_cons_of_ne_nil hslot_ok.1
        exact (hslot_ok.2.1 b (by simp)).word.isBucket
      simp only [if_pos htag]
      refine .bind (bucketInsert_spec hk hw _ hslot_ok ?_ ?_ hown') fun r h' hr => ?_
      · intro b hb hfull hnext hown''
        cases shifts with
        | nil => exact absurd hnext (lt_irrefl 0)
        | cons s' shifts =>
          exact convertBucketToLevel_spec keyOf hnext (hshifts' s' (by simp)) hb hfull hown''
      · exact fun word' slots' h' hlevel' hown'' => ih hshifts' _ hlevel' hown''
      · refine .pure (.of_slot hlevel hi_lt rfl (by rw [hslot]; rfl) hbnew ?_)
        rw [hslot]
        exact hr
    | level word' slots' =>
      rw [hslot] at hslot_ok hown'
      have htag := (Slot.ok_level_iff.mp hslot_ok).1.word.not_isBucket
      simp only [htag, Bool.false_eq_true, if_false]
      refine .bind (ih hshifts' _ hslot_ok hown') fun r h' hr => ?_
      refine .pure (.of_slot hlevel hi_lt rfl (by rw [hslot]; rfl) hbnew ?_)
      rw [hslot]
      exact hr

/-- What an insertion into a table returns and leaves. -/
structure InsertedTable (keyOf : α → κ) (base : History Block) (q : Query κ α) (k : κ) (w : α)
    (shifts : List ℕ) (frame : List Block) (lh : Slot α) (r : Inserted α) (h : History Block) :
    Prop where
  owns : h.Owns base (r.slot.blocks shifts ++ frame)
  ok : r.slot.Ok shifts 0
  did : DidInsert keyOf (base.refusals < h.refusals) q k w (lh.entries shifts) r.status r.value
    (r.slot.entries shifts)

theorem insert_spec (hk : q.key = some k) (hw : q.value = some w) {shifts : List ℕ}
    (hshifts : ∀ s ∈ shifts, s < 61) {lh : Slot α} (hok : lh.Ok shifts 0) {h base : History Block}
    {frame : List Block} (hown : h.Owns base (lh.blocks shifts ++ frame)) :
    Ends (insert keyOf A shifts lh q) h (InsertedTable keyOf base q k w shifts frame lh) := by
  cases lh with
  | null =>
    refine .bind (newBucket_spec hw hown) fun r h' hr => ?_
    cases r with
    | none =>
      exact .pure ⟨hr.1, trivial,
        Or.inr ⟨by simp [Slot.entries], rfl, Or.inr ⟨rfl, hr.2, List.Perm.refl _⟩⟩⟩
    | some b =>
      obtain ⟨hown', hb, hone, cells, hcells⟩ := hr
      refine .pure ⟨hown', ⟨by simp, by simpa using hb, fun _ => rfl⟩,
        Or.inr ⟨by simp [Slot.entries], rfl, Or.inl ⟨rfl, ?_⟩⟩⟩
      change ((Slot.bucket [b]).entries shifts).Perm _
      rw [Slot.entries_singleton, entries_of_cells hone hcells]
      exact List.Perm.refl _
  | bucket chain =>
    have htag : isBucket (Slot.bucket chain).word = true := by
      obtain ⟨b, chain, rfl⟩ := List.exists_cons_of_ne_nil hok.1
      exact (hok.2.1 b (by simp)).word.isBucket
    rw [insert]
    simp only [if_pos htag]
    refine (bucketInsert_spec hk hw 0 hok ?_ ?_ hown).mono
      fun r h' hr => ⟨hr.owns, hr.ok, hr.did⟩
    · intro b hb hfull hnext hown'
      refine convertBucketToLevel_spec keyOf hnext (hshifts _ ?_) hb hfull hown'
      cases shifts with
      | nil => exact absurd hnext (lt_irrefl 0)
      | cons s shifts => simp
    · exact fun word slots h' hlevel hown' => levelInsert_spec hk hw hshifts 0 hlevel hown'
  | level word slots =>
    have htag := (Slot.ok_level_iff.mp hok).1.word.not_isBucket
    rw [insert]
    simp only [htag, Bool.false_eq_true, if_false]
    exact (levelInsert_spec hk hw hshifts 0 hok hown).mono
      fun r h' hr => ⟨hr.owns, hr.ok, hr.did⟩

end Njs.Lvlhsh
