import Njs.Lvlhsh.Words

/-!
# Buckets and chains

A bucket with the counter `n` holds the first `n` occupied entries among its cells;
what lies behind them is stale and may look like entries. The loops of the source
read and change exactly these entries.
-/

namespace Njs.Lvlhsh

open Lib

variable {κ α : Type}

/-- The entry in a cell that is not free. -/
def Cell.entry? (e : Cell α) : Option (UInt32 × α) := e.value.map (e.key, ·)

/-- The entries in cells that are not free, stale ones included. -/
def occupied (cells : List (Cell α)) : List (UInt32 × α) := cells.filterMap Cell.entry?

@[simp] theorem occupied_nil : occupied ([] : List (Cell α)) = [] := rfl

@[simp] theorem occupied_cons_none (key : UInt32) (cells : List (Cell α)) :
    occupied (⟨none, key⟩ :: cells) = occupied cells := rfl

@[simp] theorem occupied_cons_some (v : α) (key : UInt32) (cells : List (Cell α)) :
    occupied (⟨some v, key⟩ :: cells) = (key, v) :: occupied cells := rfl

@[simp] theorem occupied_append (cells cells' : List (Cell α)) :
    occupied (cells ++ cells') = occupied cells ++ occupied cells' :=
  List.filterMap_append

theorem occupied_length_le (cells : List (Cell α)) : (occupied cells).length ≤ cells.length :=
  List.length_filterMap_le ..

/-- The entries of a bucket. -/
def Bucket.entries (b : Bucket α) : List (UInt32 × α) :=
  (occupied b.cells).take (bucketEntries b.word)

/-- A bucket of the table: a word with its address and its counter, a full array of
cells, and as many entries as the counter says, at least one. -/
structure BucketOk (n : ℕ) (p : UInt64) (b : Bucket α) : Prop where
  word : BucketWord b.word n p
  pos : 0 < n
  cells_length : b.cells.length = bucketEnd
  le_occupied : n ≤ (occupied b.cells).length

theorem BucketOk.entries_eq {n : ℕ} {p : UInt64} {b : Bucket α} (h : BucketOk n p b) :
    b.entries = (occupied b.cells).take n := by
  rw [Bucket.entries, h.word.bucketEntries]

/-! ## Single entries -/

section Positions

variable {pre post : List (Cell α)} {n : ℕ} {key : UInt32} {v w : α}

/-- The entries before and behind an occupied cell. -/
theorem take_occupied_append (hpre : (occupied pre).length < n) :
    (occupied (pre ++ ⟨some v, key⟩ :: post)).take n =
      occupied pre ++ (key, v) :: (occupied post).take (n - (occupied pre).length - 1) := by
  obtain ⟨m, hm⟩ : ∃ m, n - (occupied pre).length = m + 1 := ⟨n - (occupied pre).length - 1,
    by omega⟩
  rw [occupied_append, occupied_cons_some, List.take_append, List.take_of_length_le hpre.le, hm,
    List.take_succ_cons, Nat.add_sub_cancel]

/-- The same cell, free. -/
theorem take_occupied_append_none (hpre : (occupied pre).length ≤ n) :
    (occupied (pre ++ ⟨none, key⟩ :: post)).take n =
      occupied pre ++ (occupied post).take (n - (occupied pre).length) := by
  rw [occupied_append, occupied_cons_none, List.take_append, List.take_of_length_le hpre]

/-- A cell where one more entry can be written: it is free, or the first one behind
all entries. -/
def IsVacant (n : ℕ) (pre : List (Cell α)) (e : Cell α) : Prop :=
  (occupied pre).length ≤ n ∧ (e.value = none ∨ (occupied pre).length = n)

/-- Writing an entry to a vacant cell adds it to the bucket. -/
theorem perm_of_isVacant {e : Cell α} (h : IsVacant n pre e) :
    ((occupied (pre ++ ⟨some v, key⟩ :: post)).take (n + 1)).Perm
      ((key, v) :: (occupied (pre ++ e :: post)).take n) := by
  obtain ⟨hle, hvacant⟩ := h
  have hbefore : (occupied (pre ++ e :: post)).take n =
      occupied pre ++ (occupied post).take (n - (occupied pre).length) := by
    rcases hvacant with hfree | hlast
    · obtain ⟨value, key'⟩ := e
      obtain rfl : value = none := hfree
      exact take_occupied_append_none hle
    · rw [occupied_append, List.take_append, ← hlast, Nat.sub_self, List.take_zero, List.take_zero,
        List.take_length]
  have hsub : n + 1 - (occupied pre).length - 1 = n - (occupied pre).length := by omega
  rw [take_occupied_append (by omega), hbefore, hsub]
  exact List.perm_middle

theorem le_occupied_of_isVacant {e : Cell α} (h : IsVacant n pre e)
    (hn : n ≤ (occupied (pre ++ e :: post)).length) :
    n + 1 ≤ (occupied (pre ++ ⟨some v, key⟩ :: post)).length := by
  obtain ⟨hle, hvacant⟩ := h
  rw [occupied_append, List.length_append] at hn ⊢
  rw [occupied_cons_some, List.length_cons]
  rcases hvacant with hfree | hlast
  · obtain ⟨value, key'⟩ := e
    obtain rfl : value = none := hfree
    rw [occupied_cons_none] at hn
    omega
  · omega

/-- Overwriting the value of an entry changes this entry only. -/
theorem perm_replace (hpre : (occupied pre).length < n) :
    ∃ rest, ((occupied (pre ++ ⟨some v, key⟩ :: post)).take n).Perm ((key, v) :: rest) ∧
      ((occupied (pre ++ ⟨some w, key⟩ :: post)).take n).Perm ((key, w) :: rest) ∧
      ((occupied (pre ++ ⟨none, key⟩ :: post)).take (n - 1)).Perm rest := by
  refine ⟨occupied pre ++ (occupied post).take (n - (occupied pre).length - 1), ?_, ?_, ?_⟩
  · rw [take_occupied_append hpre]
    exact List.perm_middle
  · rw [take_occupied_append hpre]
    exact List.perm_middle
  · rw [take_occupied_append_none (by omega), Nat.sub_right_comm]

end Positions

/-! ## Searching one bucket -/

section Searching

variable [DecidableEq κ] (keyOf : α → κ)

/-- An entry has the hash and the key of a query. -/
def Matches (q : Query κ α) (e : UInt32 × α) : Prop :=
  e.1 = q.keyHash ∧ q.key = some (keyOf e.2)

/-- The index of the first free cell. -/
def firstFree (cells : List (Cell α)) : Option ℕ := cells.findIdx? fun e => e.value.isNone

variable {keyOf} {q : Query κ α} {k : κ}

theorem testEntry_eq (hk : q.key = some k) (v : α) (key : UInt32) :
    ∃ same : Bool, testEntry keyOf q key v = some same ∧
      (same = true ↔ Matches keyOf q (key, v)) := by
  rw [testEntry]
  by_cases hkey : key = q.keyHash
  · refine ⟨k == keyOf v, by rw [if_pos hkey, test, hk, Option.map_some], ?_⟩
    simp [Matches, hkey, hk]
  · exact ⟨false, if_neg hkey, by simp [Matches, hkey]⟩

/-- The search of a bucket stops at the entry with the key, or behind the last entry
with the first free cell before. -/
theorem cellSearch_spec (hk : q.key = some k) (b : ℕ) (cells : List (Cell α)) {n : ℕ} (i : ℕ)
    (vacant : Option (ℕ × ℕ)) (hpos : 0 < n) (hn : n ≤ (occupied cells).length) :
    (∃ pre v post, cells = pre ++ ⟨some v, q.keyHash⟩ :: post ∧ (occupied pre).length < n ∧
      keyOf v = k ∧ cellSearch keyOf q b cells n i vacant = some (.inl (i + pre.length, v))) ∨
    (∃ pre post, cells = pre ++ post ∧ (occupied pre).length = n ∧
      (∀ e ∈ occupied pre, ¬Matches keyOf q e) ∧
      cellSearch keyOf q b cells n i vacant =
        some (.inr (i + pre.length, vacant.or ((firstFree pre).map fun j => (b, i + j))))) := by
  induction cells generalizing n i vacant with
  | nil => simp only [occupied_nil, List.length_nil] at hn; omega
  | cons e cells ih =>
    obtain ⟨value, key⟩ := e
    cases value with
    | none =>
      have hor : ∀ j, ((vacant.or (some (b, i))).or j) = vacant.or (some (b, i)) := by
        intro j
        cases vacant <;> rfl
      have hfree : ∀ pre, firstFree (⟨none, key⟩ :: pre : List (Cell α)) = some 0 := fun pre => rfl
      rw [occupied_cons_none] at hn
      simp only [cellSearch, if_neg hpos.ne']
      rcases ih (i + 1) (vacant.or (some (b, i))) hpos hn with
        ⟨pre, v, post, rfl, hpre, hv, heq⟩ | ⟨pre, post, rfl, hpre, hno, heq⟩
      · refine Or.inl ⟨⟨none, key⟩ :: pre, v, post, rfl, hpre, hv, ?_⟩
        rw [heq, List.length_cons, Nat.add_right_comm, Nat.add_assoc]
      · refine Or.inr ⟨⟨none, key⟩ :: pre, post, rfl, hpre, hno, ?_⟩
        rw [heq, hor, hfree, List.length_cons, Nat.add_right_comm, Nat.add_assoc]
        rfl
    | some v =>
      obtain ⟨same, hsame, hiff⟩ := @testEntry_eq _ _ _ keyOf _ _ hk v key
      simp only [cellSearch, if_neg hpos.ne', hsame, Option.bind_eq_bind, Option.bind_some]
      by_cases hmatch : same = true
      · obtain ⟨rfl, hkey⟩ := hiff.mp hmatch
        refine Or.inl ⟨[], v, cells, rfl, hpos, ?_, by rw [if_pos hmatch]; rfl⟩
        exact Option.some.inj (hkey.symm.trans hk)
      · have hnot : ¬Matches keyOf q (key, v) := mt hiff.mpr hmatch
        have hfree : ∀ pre, firstFree (⟨some v, key⟩ :: pre : List (Cell α)) =
            (firstFree pre).map (· + 1) := fun pre => by
          rw [firstFree, List.findIdx?_cons]
          rfl
        rw [if_neg hmatch]
        by_cases hone : n = 1
        · refine Or.inr ⟨[⟨some v, key⟩], cells, rfl, hone.symm, by simpa using hnot, ?_⟩
          rw [if_pos hone, hfree]
          simp [firstFree]
        · rw [if_neg hone]
          rw [occupied_cons_some, List.length_cons] at hn
          rcases ih (n := n - 1) (i + 1) vacant (by omega) (by omega) with
            ⟨pre, w, post, rfl, hpre, hw, heq⟩ | ⟨pre, post, rfl, hpre, hno, heq⟩
          · refine Or.inl ⟨⟨some v, key⟩ :: pre, w, post, rfl, ?_, hw, ?_⟩
            · rw [occupied_cons_some, List.length_cons]
              omega
            · rw [heq, List.length_cons, Nat.add_right_comm, Nat.add_assoc]
          · refine Or.inr ⟨⟨some v, key⟩ :: pre, post, rfl, ?_, ?_, ?_⟩
            · rw [occupied_cons_some, List.length_cons]
              omega
            · rw [occupied_cons_some]
              exact List.forall_mem_cons.mpr ⟨hnot, hno⟩
            · rw [heq, hfree, List.length_cons, Nat.add_right_comm, Nat.add_assoc, Option.map_map]
              simp only [Function.comp_def, Nat.add_assoc, Nat.add_comm 1]

/-- The loops of `njs_lvlhsh_bucket_find` and `njs_lvlhsh_bucket_delete` run like the
search, without an eye on free cells. -/
theorem cellFind_eq (b : ℕ) (cells : List (Cell α)) (n i : ℕ) (vacant : Option (ℕ × ℕ)) :
    cellFind keyOf q cells n i =
      (cellSearch keyOf q b cells n i vacant).map (Sum.elim some fun _ => none) := by
  induction cells generalizing n i vacant with
  | nil => rfl
  | cons e cells ih =>
    obtain ⟨value, key⟩ := e
    cases value with
    | none =>
      simp only [cellFind, cellSearch]
      split_ifs
      · rfl
      · exact ih n (i + 1) _
    | some v =>
      simp only [cellFind, cellSearch]
      split_ifs with hzero hone
      · rfl
      · cases testEntry keyOf q key v with
        | none => rfl
        | some same => cases same <;> rfl
      · cases testEntry keyOf q key v with
        | none => rfl
        | some same =>
          cases same with
          | true => rfl
          | false => exact ih (n - 1) (i + 1) vacant

/-! ## Searching a chain -/

theorem firstFree_eq_some {cells : List (Cell α)} {j : ℕ} (h : firstFree cells = some j) :
    ∃ pre e post, cells = pre ++ e :: post ∧ pre.length = j ∧ e.value = none := by
  induction cells generalizing j with
  | nil => cases h
  | cons e cells ih =>
    rw [firstFree, List.findIdx?_cons] at h
    by_cases hfree : e.value.isNone = true
    · rw [if_pos hfree] at h
      exact ⟨[], e, cells, rfl, Option.some.inj h, Option.isNone_iff_eq_none.mp hfree⟩
    · rw [if_neg hfree] at h
      obtain ⟨i, hi, rfl⟩ := Option.map_eq_some_iff.mp h
      obtain ⟨pre, e', post, rfl, rfl, he'⟩ := ih hi
      exact ⟨e :: pre, e', post, rfl, rfl, he'⟩

theorem occupied_length_of_firstFree {cells : List (Cell α)} (h : firstFree cells = none) :
    (occupied cells).length = cells.length := by
  rw [firstFree, List.findIdx?_eq_none_iff] at h
  induction cells with
  | nil => rfl
  | cons e cells ih =>
    obtain ⟨value, key⟩ := e
    obtain ⟨he, hcells⟩ := List.forall_mem_cons.mp h
    cases value with
    | none => cases he
    | some v => rw [occupied_cons_some, List.length_cons, ih hcells, List.length_cons]

/-- The invariant of one bucket of the table, read off its word. -/
def Bucket.Ok (b : Bucket α) : Prop := BucketOk (bucketEntries b.word) (bucketAddress b.word) b

theorem BucketOk.ok {n : ℕ} {p : UInt64} {b : Bucket α} (h : BucketOk n p b) : b.Ok := by
  rw [Bucket.Ok, h.word.bucketEntries, h.word.bucketAddress]
  exact h

/-- The entries of a chain. -/
def chainEntries (chain : List (Bucket α)) : List (UInt32 × α) := chain.flatMap Bucket.entries

@[simp] theorem chainEntries_nil : chainEntries ([] : List (Bucket α)) = [] := rfl

@[simp] theorem chainEntries_cons (b : Bucket α) (chain : List (Bucket α)) :
    chainEntries (b :: chain) = b.entries ++ chainEntries chain := rfl

/-- The position of an entry with the key of a query. -/
structure FoundAt (keyOf : α → κ) (q : Query κ α) (chain cpre : List (Bucket α)) (b : Bucket α)
    (cpost : List (Bucket α)) (pre : List (Cell α)) (v : α) (post : List (Cell α)) : Prop where
  chain_eq : chain = cpre ++ b :: cpost
  cells_eq : b.cells = pre ++ ⟨some v, q.keyHash⟩ :: post
  lt : (occupied pre).length < bucketEntries b.word
  key_eq : q.key = some (keyOf v)

/-- The position of a vacant cell. -/
structure VacantAt (chain cpre : List (Bucket α)) (b : Bucket α) (cpost : List (Bucket α))
    (pre : List (Cell α)) (e : Cell α) (post : List (Cell α)) : Prop where
  chain_eq : chain = cpre ++ b :: cpost
  cells_eq : b.cells = pre ++ e :: post
  vacant : IsVacant (bucketEntries b.word) pre e

/-- A bucket without a vacant cell. -/
def Bucket.IsFull (b : Bucket α) : Prop :=
  bucketEntries b.word = bucketEnd ∧ (occupied b.cells).length = bucketEnd

/-- The search of one bucket that is part of the table. -/
theorem Bucket.Ok.cellSearch (hk : q.key = some k) {b : Bucket α} (hb : b.Ok) (j : ℕ)
    (vacant : Option (ℕ × ℕ)) :
    (∃ pre v post, b.cells = pre ++ ⟨some v, q.keyHash⟩ :: post ∧
      (occupied pre).length < bucketEntries b.word ∧ keyOf v = k ∧
      cellSearch keyOf q j b.cells (bucketEntries b.word) 0 vacant =
        some (.inl (pre.length, v))) ∨
    (∃ e vacant', cellSearch keyOf q j b.cells (bucketEntries b.word) 0 vacant =
        some (.inr (e, vacant')) ∧ (∀ e ∈ b.entries, ¬Matches keyOf q e) ∧
      ((∃ pre c post, b.cells = pre ++ c :: post ∧ IsVacant (bucketEntries b.word) pre c ∧
        (if e < bucketEnd then vacant'.or (some (j, e)) else vacant') =
          vacant.or (some (j, pre.length))) ∨
      (b.IsFull ∧ (if e < bucketEnd then vacant'.or (some (j, e)) else vacant') = vacant))) := by
  rcases @cellSearch_spec _ _ _ keyOf _ _ hk j b.cells _ 0 vacant hb.pos hb.le_occupied with
    ⟨pre, v, post, hcells, hlt, hv, heq⟩ | ⟨pre, post, hcells, hn, hno, heq⟩
  · exact Or.inl ⟨pre, v, post, hcells, hlt, hv, by rw [heq, Nat.zero_add]⟩
  · have hlen := hb.cells_length
    rw [hcells, List.length_append] at hlen
    have hnone : ∀ e ∈ b.entries, ¬Matches keyOf q e := by
      have hentries : b.entries = occupied pre := by
        rw [Bucket.entries, hcells, occupied_append, ← hn, List.take_left]
      rwa [hentries]
    simp only [Nat.zero_add] at heq
    refine Or.inr ⟨_, _, heq, hnone, ?_⟩
    cases hfree : firstFree pre with
    | some i =>
      obtain ⟨pre', c, post', rfl, rfl, hc⟩ := firstFree_eq_some hfree
      refine Or.inl ⟨pre', c, post' ++ post, by rw [hcells]; simp, ⟨?_, Or.inl hc⟩, ?_⟩
      · rw [← hn, occupied_append, List.length_append]
        omega
      · simp only [Option.map_some]
        cases vacant <;> split_ifs <;> rfl
    | none =>
      have hpre := occupied_length_of_firstFree hfree
      simp only [Option.map_none, Option.or_none]
      by_cases hend : pre.length < bucketEnd
      · obtain ⟨c, post', rfl⟩ := List.exists_cons_of_ne_nil
          (List.ne_nil_of_length_pos (by omega : 0 < post.length))
        exact Or.inl ⟨pre, c, post', hcells, ⟨hn.le, Or.inr hn⟩, by rw [if_pos hend]⟩
      · have hpost : post = [] := List.length_eq_zero_iff.mp (by omega)
        refine Or.inr ⟨⟨by omega, ?_⟩, by rw [if_neg hend]⟩
        rw [hcells, hpost, List.append_nil]
        omega

omit [DecidableEq κ] in
private theorem FoundAt.cons {chain cpre cpost : List (Bucket α)} {b : Bucket α}
    {pre post : List (Cell α)} {v : α} (h : FoundAt keyOf q chain cpre b cpost pre v post)
    (b' : Bucket α) : FoundAt keyOf q (b' :: chain) (b' :: cpre) b cpost pre v post :=
  ⟨by rw [h.chain_eq, List.cons_append], h.cells_eq, h.lt, h.key_eq⟩

private theorem VacantAt.cons {chain cpre cpost : List (Bucket α)} {b : Bucket α}
    {pre post : List (Cell α)} {e : Cell α} (h : VacantAt chain cpre b cpost pre e post)
    (b' : Bucket α) : VacantAt (b' :: chain) (b' :: cpre) b cpost pre e post :=
  ⟨by rw [h.chain_eq, List.cons_append], h.cells_eq, h.vacant⟩

/-- The search of a chain with the vacant position found before it, if any. -/
private theorem chainSearch_from (hk : q.key = some k) {chain : List (Bucket α)}
    (hok : ∀ b ∈ chain, b.Ok) (j : ℕ) (vacant : Option (ℕ × ℕ)) :
    (∃ cpre b cpost pre v post, FoundAt keyOf q chain cpre b cpost pre v post ∧
      chainSearch keyOf q chain j vacant = some (.found (j + cpre.length) pre.length v)) ∨
    ((∀ e ∈ chainEntries chain, ¬Matches keyOf q e) ∧
      (∀ x y, vacant = some (x, y) → chainSearch keyOf q chain j vacant = some (.vacant x y)) ∧
      (vacant = none →
        (∃ cpre b cpost pre e post, VacantAt chain cpre b cpost pre e post ∧
          chainSearch keyOf q chain j vacant = some (.vacant (j + cpre.length) pre.length)) ∨
        ((∀ b ∈ chain, b.IsFull) ∧ chainSearch keyOf q chain j vacant = some .full))) := by
  induction chain generalizing j vacant with
  | nil =>
    refine Or.inr ⟨by simp, ?_, ?_⟩
    · rintro x y rfl
      rfl
    · rintro rfl
      exact Or.inr ⟨by simp, rfl⟩
  | cons b chain ih =>
    obtain ⟨hb, hchain⟩ := List.forall_mem_cons.mp hok
    rcases @Bucket.Ok.cellSearch _ _ _ keyOf _ _ hk _ hb j vacant with
      ⟨pre, v, post, hcells, hlt, hv, heq⟩ | ⟨e, vacant', heq, hno, hvac⟩
    · refine Or.inl ⟨[], b, chain, pre, v, post, ⟨rfl, hcells, hlt, hv ▸ hk⟩, ?_⟩
      simp only [chainSearch, heq, Option.bind_eq_bind, Option.bind_some, List.length_nil,
        Nat.add_zero]
    · simp only [chainSearch, heq, Option.bind_eq_bind, Option.bind_some]
      have hshift : ∀ l : List (Bucket α), j + 1 + l.length = j + (b :: l).length := fun l => by
        rw [List.length_cons]
        omega
      rcases hvac with ⟨pre, c, post, hcells, hvacant, hnext⟩ | ⟨hfull, hnext⟩
      · rw [hnext]
        rcases ih hchain (j + 1) (vacant.or (some (j, pre.length))) with
          ⟨cpre, b', cpost, pre', v, post', hfound, heq'⟩ | ⟨hno', hsome, -⟩
        · exact Or.inl ⟨b :: cpre, b', cpost, pre', v, post', hfound.cons b, by rw [heq', hshift]⟩
        · refine Or.inr ⟨fun e he => (List.mem_append.mp he).elim (hno e) (hno' e), ?_, ?_⟩
          · rintro x y rfl
            exact hsome x y rfl
          · rintro rfl
            exact Or.inl ⟨[], b, chain, pre, c, post, ⟨rfl, hcells, hvacant⟩, hsome j _ rfl⟩
      · rw [hnext]
        rcases ih hchain (j + 1) vacant with
          ⟨cpre, b', cpost, pre', v, post', hfound, heq'⟩ | ⟨hno', hsome, hnone⟩
        · exact Or.inl ⟨b :: cpre, b', cpost, pre', v, post', hfound.cons b, by rw [heq', hshift]⟩
        · refine Or.inr ⟨fun e he => (List.mem_append.mp he).elim (hno e) (hno' e), hsome,
            fun hvac => ?_⟩
          rcases hnone hvac with ⟨cpre, b', cpost, pre', e', post', hat, heq'⟩ | ⟨hall, heq'⟩
          · exact Or.inl ⟨b :: cpre, b', cpost, pre', e', post', hat.cons b, by rw [heq', hshift]⟩
          · exact Or.inr ⟨List.forall_mem_cons.mpr ⟨hfull, hall⟩, heq'⟩

/-- The search of `njs_lvlhsh_bucket_insert` finds the entry with the key, if there is
one, and otherwise a vacant cell, unless all buckets are full. -/
theorem chainSearch_spec (hk : q.key = some k) {chain : List (Bucket α)}
    (hok : ∀ b ∈ chain, b.Ok) :
    (∃ cpre b cpost pre v post, FoundAt keyOf q chain cpre b cpost pre v post ∧
      chainSearch keyOf q chain 0 none = some (.found cpre.length pre.length v)) ∨
    ((∀ e ∈ chainEntries chain, ¬Matches keyOf q e) ∧
      ((∃ cpre b cpost pre e post, VacantAt chain cpre b cpost pre e post ∧
        chainSearch keyOf q chain 0 none = some (.vacant cpre.length pre.length)) ∨
      ((∀ b ∈ chain, b.IsFull) ∧ chainSearch keyOf q chain 0 none = some .full))) := by
  have hfrom := @chainSearch_from _ _ _ keyOf _ _ hk _ hok 0 none
  simp only [Nat.zero_add, forall_const] at hfrom
  rcases hfrom with hfound | ⟨hno, -, hrest⟩
  · exact Or.inl hfound
  · exact Or.inr ⟨hno, hrest⟩

end Searching

/-! ## Changing a chain -/

/-- The blocks of a chain. -/
def chainBlocks (chain : List (Bucket α)) : List Block :=
  chain.map fun b => ⟨bucketAddress b.word, bucketSize⟩

@[simp] theorem chainBlocks_cons (b : Bucket α) (chain : List (Bucket α)) :
    chainBlocks (b :: chain) = ⟨bucketAddress b.word, bucketSize⟩ :: chainBlocks chain := rfl

theorem chainBlocks_append (chain chain' : List (Bucket α)) :
    chainBlocks (chain ++ chain') = chainBlocks chain ++ chainBlocks chain' :=
  List.map_append

theorem chainEntries_append (chain chain' : List (Bucket α)) :
    chainEntries (chain ++ chain') = chainEntries chain ++ chainEntries chain' :=
  List.flatMap_append

private theorem modify_append_cons {β : Type} (pre : List β) (x : β) (post : List β) (f : β → β) :
    (pre ++ x :: post).modify pre.length f = pre ++ f x :: post := by
  induction pre with
  | nil => rfl
  | cons y pre ih => rw [List.cons_append, List.length_cons, List.modify_succ_cons, ih,
      List.cons_append]

theorem set_append_cons {β : Type} (pre : List β) (x y : β) (post : List β) :
    (pre ++ x :: post).set pre.length y = pre ++ y :: post := by
  rw [List.set_append_right _ _ (le_refl _), Nat.sub_self, List.set_cons_zero]

/-- A change of one bucket changes the entries of the chain in the same way. -/
private theorem chainEntries_perm {cpre cpost : List (Bucket α)} {b : Bucket α}
    (es : List (UInt32 × α)) {rest : List (UInt32 × α)} (h : b.entries.Perm (es ++ rest)) :
    (chainEntries (cpre ++ b :: cpost)).Perm
      (es ++ (chainEntries cpre ++ rest ++ chainEntries cpost)) := by
  rw [chainEntries_append, chainEntries_cons]
  calc chainEntries cpre ++ (b.entries ++ chainEntries cpost)
      |>.Perm (chainEntries cpre ++ (es ++ rest ++ chainEntries cpost)) :=
        (h.append_right _).append_left _
    _ |>.Perm (es ++ (chainEntries cpre ++ rest ++ chainEntries cpost)) := by
      simp only [List.append_assoc]
      exact List.perm_append_comm_assoc _ _ _

private theorem ok_of_replace {cpre cpost : List (Bucket α)} {b b' : Bucket α}
    (hok : ∀ c ∈ cpre ++ b :: cpost, c.Ok) (hb' : b'.Ok) : ∀ c ∈ cpre ++ b' :: cpost, c.Ok := by
  simp only [List.mem_append, List.mem_cons] at hok ⊢
  rintro c (hc | rfl | hc)
  · exact hok c (Or.inl hc)
  · exact hb'
  · exact hok c (Or.inr (Or.inr hc))

section Updates

variable {keyOf : α → κ} {q : Query κ α} {chain cpre cpost : List (Bucket α)} {b : Bucket α}
  {pre post : List (Cell α)} {v : α}

/-- Replacing the value of the entry that was found. -/
theorem FoundAt.setCell (h : FoundAt keyOf q chain cpre b cpost pre v post)
    (hok : ∀ b ∈ chain, b.Ok) (w : α) :
    ∃ rest chain', setCell chain cpre.length pre.length ⟨some w, q.keyHash⟩ = chain' ∧
      (∀ b ∈ chain', b.Ok) ∧ chain'.map Bucket.word = chain.map Bucket.word ∧
      (chainEntries chain).Perm ((q.keyHash, v) :: rest) ∧
      (chainEntries chain').Perm ((q.keyHash, w) :: rest) := by
  obtain ⟨rfl, hcells, hlt, -⟩ := h
  have hb : b.Ok := hok b (by simp)
  set b' : Bucket α := ⟨b.word, pre ++ ⟨some w, q.keyHash⟩ :: post⟩ with hb'
  have hset : Lvlhsh.setCell (cpre ++ b :: cpost) cpre.length pre.length ⟨some w, q.keyHash⟩ =
      cpre ++ b' :: cpost := by
    rw [Lvlhsh.setCell, modify_append_cons, hcells, set_append_cons]
  have hok' : b'.Ok := by
    refine ⟨hb.word, hb.pos, ?_, ?_⟩
    · rw [← hb.cells_length, hcells, hb']
      simp
    · have hle := hb.le_occupied
      rw [hcells, occupied_append, List.length_append, occupied_cons_some] at hle
      rw [hb', occupied_append, List.length_append, occupied_cons_some]
      exact hle
  obtain ⟨rest, hold, hnew, -⟩ := @perm_replace α pre post (bucketEntries b.word) q.keyHash v w hlt
  rw [← hcells] at hold
  exact ⟨chainEntries cpre ++ rest ++ chainEntries cpost, _, hset, ok_of_replace hok hok',
    by simp [hb'], chainEntries_perm [_] hold, chainEntries_perm [_] hnew⟩

/-- Writing a new entry to the vacant cell that was found. -/
theorem VacantAt.setCell {e : Cell α} (h : VacantAt chain cpre b cpost pre e post)
    (hok : ∀ b ∈ chain, b.Ok) (key : UInt32) (w : α) :
    ∃ chain', incChain (setCell chain cpre.length pre.length ⟨some w, key⟩) cpre.length = chain' ∧
      (∀ b ∈ chain', b.Ok) ∧ chain'.length = chain.length ∧ chainBlocks chain' = chainBlocks chain ∧
      (chainEntries chain').Perm ((key, w) :: chainEntries chain) := by
  obtain ⟨rfl, hcells, hvacant⟩ := h
  have hb : b.Ok := hok b (by simp)
  have hle := hb.le_occupied
  rw [hcells] at hle
  have hmore := @le_occupied_of_isVacant α pre post _ key w e hvacant hle
  have hlen : (pre ++ ⟨some w, key⟩ :: post : List (Cell α)).length = bucketEnd := by
    rw [← hb.cells_length, hcells]
    simp
  have hcount := occupied_length_le (pre ++ ⟨some w, key⟩ :: post : List (Cell α))
  have hword := hb.word.countInc (by omega)
  set b' : Bucket α := ⟨countInc b.word, pre ++ ⟨some w, key⟩ :: post⟩ with hb'
  have hok' : BucketOk (bucketEntries b.word + 1) (bucketAddress b.word) b' :=
    ⟨hword, Nat.succ_pos _, hlen, hmore⟩
  have hset : incChain (Lvlhsh.setCell (cpre ++ b :: cpost) cpre.length pre.length ⟨some w, key⟩)
      cpre.length = cpre ++ b' :: cpost := by
    rw [Lvlhsh.setCell, modify_append_cons, incChain, modify_append_cons, hcells, set_append_cons]
  have hperm : b'.entries.Perm ([(key, w)] ++ b.entries) := by
    rw [hok'.entries_eq, hb.entries_eq, hcells]
    exact perm_of_isVacant hvacant
  refine ⟨_, hset, ok_of_replace hok hok'.ok, by simp, ?_, ?_⟩
  · rw [chainBlocks_append, chainBlocks_append, chainBlocks_cons, chainBlocks_cons,
      hword.bucketAddress]
  · refine (chainEntries_perm [_] hperm).trans ?_
    rw [chainEntries_append, chainEntries_cons, List.append_assoc]
    exact List.Perm.refl _

end Updates

/-! ## New buckets -/

/-- A bucket of one entry, as `njs_lvlhsh_new_bucket` makes it. -/
theorem bucketOk_new {p : UInt64} (hp : bucketSize ∣ p.toNat) (key : UInt32) (w : α)
    (stale : ℕ → Cell α) :
    BucketOk 1 p (⟨storeBucket p, ⟨some w, key⟩ ::
      (List.range (bucketEnd - 1)).map fun i => stale (i + 1)⟩ : Bucket α) := by
  refine ⟨.storeBucket hp, Nat.one_pos, by simp [bucketEnd, bucketSize], ?_⟩
  rw [occupied_cons_some]
  exact Nat.succ_le_succ (Nat.zero_le _)

end Njs.Lvlhsh
