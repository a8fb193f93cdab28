import Njs.Lvlhsh.Invariant
import Njs.Lvlhsh.Iterator

/-!
# What iterating returns

The iterator is always at a leaf of the tree. What it still has to return are the
entries left in the bucket, the entries of the slots behind this leaf in its level, and
so on up to the root. This holds as long as the indices of all levels fit in one word.
-/

namespace Njs.Lvlhsh

variable {α : Type}

/-! ## One bucket -/

/-- The entries that an iterator still has to return from its bucket and the chain
behind. -/
def Each.Holds (lhe : Each α) (es : List (UInt32 × α)) : Prop :=
  match lhe.bucket with
  | .null => False
  | .done => es = []
  | .bucket b chain => 0 < lhe.entries ∧ lhe.entries ≤ (occupied (b.cells.drop lhe.entry)).length ∧
      (∀ b ∈ chain, b.Ok) ∧
      es = (occupied (b.cells.drop lhe.entry)).take lhe.entries ++ chainEntries chain

private theorem skipFree_spec (cells : List (Cell α)) (entry : ℕ)
    (h : 0 < (occupied cells).length) :
    ∃ e rest, occupied cells = e :: rest ∧ ∃ j, skipFree cells entry = some (e.2, e.1, entry + j) ∧
      occupied (cells.drop j) = rest := by
  induction cells generalizing entry with
  | nil => cases h
  | cons c cells ih =>
    obtain ⟨value, key⟩ := c
    cases value with
    | some v => exact ⟨(key, v), occupied cells, occupied_cons_some .., 1, rfl, rfl⟩
    | none =>
      rw [occupied_cons_none] at h ⊢
      obtain ⟨e, rest, heq, j, hskip, hdrop⟩ := ih (entry + 1) h
      refine ⟨e, rest, heq, j + 1, ?_, by rw [List.drop_succ_cons, hdrop]⟩
      simp only [skipFree]
      rw [hskip, Nat.add_assoc, Nat.add_comm 1]

theorem bucketEach_spec {lhe : Each α} {b : Bucket α} {chain : List (Bucket α)}
    {es : List (UInt32 × α)} (hbucket : lhe.bucket = .bucket b chain) (hholds : lhe.Holds es) :
    ∃ e rest lhe', es = e :: rest ∧ bucketEach lhe = some (e.2, lhe') ∧ lhe'.keyHash = e.1 ∧
      lhe'.Holds rest ∧ lhe'.current = lhe.current := by
  rw [Each.Holds, hbucket] at hholds
  obtain ⟨hpos, hle, hchain, rfl⟩ := hholds
  obtain ⟨e, rest, heq, j, hskip, hdrop⟩ := skipFree_spec _ lhe.entry (lt_of_lt_of_le hpos hle)
  rw [heq, List.length_cons] at hle
  rw [heq]
  by_cases hone : lhe.entries = 1
  · cases chain with
    | nil =>
      refine ⟨e, [], ⟨.done, lhe.current, 0, 0, e.1⟩, by simp [hone], ?_, rfl, rfl, rfl⟩
      simp [bucketEach, hbucket, hskip, hone]
    | cons b' chain =>
      obtain ⟨hb', hchain'⟩ := List.forall_mem_cons.mp hchain
      refine ⟨e, chainEntries (b' :: chain), ⟨.bucket b' chain, lhe.current, 0, bucketEntries
        b'.word,
        e.1⟩, by simp [hone], ?_, rfl, ?_, rfl⟩
      · simp [bucketEach, hbucket, hskip, hone]
      · exact ⟨hb'.pos, hb'.le_occupied, hchain', rfl⟩
  · obtain ⟨n, hn⟩ : ∃ n, lhe.entries = n + 2 := ⟨lhe.entries - 2, by omega⟩
    refine ⟨e, rest.take (lhe.entries - 1) ++ chainEntries chain,
      ⟨.bucket b chain, lhe.current, lhe.entry + j, lhe.entries - 1, e.1⟩, ?_, ?_, rfl, ?_, rfl⟩
    · rw [hn, List.take_succ_cons]
      rfl
    · have hzero : lhe.entries ≠ 0 := by omega
      simp [bucketEach, hbucket, hskip, hone, hzero]
    · rw [List.drop_drop] at hdrop
      refine ⟨?_, ?_, hchain, ?_⟩
      · change 0 < lhe.entries - 1
        omega
      · change lhe.entries - 1 ≤ _
        rw [hdrop]
        omega
      · rw [hdrop]

/-! ## The leaf of an iterator -/

/-- The entries of the slots of a level from one slot on. -/
def entriesFrom (slots : ℕ → Slot α) (shifts : List ℕ) (n : ℕ) : List (UInt32 × α) :=
  ((List.range (2 ^ shifts.headD 0)).drop n).flatMap fun i => (slots i).entries shifts.tail

theorem entriesFrom_eq {slots : ℕ → Slot α} {shifts : List ℕ} {n : ℕ}
    (hn : n < 2 ^ shifts.headD 0) :
    entriesFrom slots shifts n =
      (slots n).entries shifts.tail ++ entriesFrom slots shifts (n + 1) := by
  have hlen : n < (List.range (2 ^ shifts.headD 0)).length := by rwa [List.length_range]
  rw [entriesFrom, List.drop_eq_getElem_cons hlen, List.getElem_range, List.flatMap_cons]
  rfl

theorem entriesFrom_end (slots : ℕ → Slot α) (shifts : List ℕ) :
    entriesFrom slots shifts (2 ^ shifts.headD 0) = [] := by
  rw [entriesFrom, List.drop_of_length_le (by rw [List.length_range])]
  rfl

namespace Slot

/-- The word `c` of an iterator leads to a leaf below this pointer, and all its bits
behind the index of this leaf are zero. -/
def Leads : Slot α → List ℕ → ℕ → ℕ → Prop
  | null, _, _, _ => False
  | bucket _, _, depth, c => c < 2 ^ depth
  | level _ slots, shifts, depth, c =>
    (slots (c / 2 ^ depth % 2 ^ shifts.headD 0)).Leads shifts.tail (depth + shifts.headD 0) c

/-- The entries behind the leaf to which a word leads. -/
def behind : Slot α → List ℕ → ℕ → ℕ → List (UInt32 × α)
  | null, _, _, _ => []
  | bucket _, _, _, _ => []
  | level _ slots, shifts, depth, c =>
    let n := c / 2 ^ depth % 2 ^ shifts.headD 0
    (slots n).behind shifts.tail (depth + shifts.headD 0) c ++ entriesFrom slots shifts (n + 1)

/-- The indices of all levels below a pointer fit in a word of 32 bits. -/
def Fits : Slot α → List ℕ → ℕ → Prop
  | null, _, _ => True
  | bucket _, _, _ => True
  | level _ slots, shifts, depth =>
    depth + shifts.headD 0 ≤ 32 ∧
      ∀ i < 2 ^ shifts.headD 0, (slots i).Fits shifts.tail (depth + shifts.headD 0)

end Slot

/-- An iterator that returned an entry from below a pointer, and what it will return
from there. -/
structure Resumes (slot : Slot α) (shifts : List ℕ) (depth : ℕ) (lhe : Each α)
    (es : List (UInt32 × α)) : Prop where
  leads : slot.Leads shifts depth lhe.current.toNat
  holds : ∃ held, lhe.Holds held ∧ es = held ++ slot.behind shifts depth lhe.current.toNat

/-- What visiting a pointer returns if the entries `es` are to be returned there. -/
def Visits (slot : Slot α) (shifts : List ℕ) (depth c : ℕ) (es : List (UInt32 × α))
    (result : Option (Option α × Each α)) : Prop :=
  match es with
  | [] => ∃ lhe, result = some (none, lhe) ∧ lhe.bucket = .null ∧ lhe.current.toNat = c % 2 ^ depth
  | e :: es => ∃ lhe, result = some (some e.2, lhe) ∧ lhe.keyHash = e.1 ∧
      lhe.current.toNat % 2 ^ depth = c % 2 ^ depth ∧ Resumes slot shifts depth lhe es

theorem Visits.congr {slot : Slot α} {shifts : List ℕ} {depth c c' : ℕ} {es : List (UInt32 × α)}
    {result : Option (Option α × Each α)} (h : Visits slot shifts depth c' es result)
    (hc : c' % 2 ^ depth = c % 2 ^ depth) : Visits slot shifts depth c es result := by
  cases es with
  | nil =>
    rw [Visits, ← hc]
    exact h
  | cons e es =>
    rw [Visits, ← hc]
    exact h

/-- The entries that are due when a pointer is visited: all of them at the start, and
later those behind the leaf where the iterator is. -/
def Due (slot : Slot α) (shifts : List ℕ) (depth : ℕ) (lhe : Each α) (es : List (UInt32 × α)) :
    Prop :=
  (lhe.bucket = .null ∧ lhe.current.toNat < 2 ^ depth ∧ es = slot.entries shifts) ∨
    (lhe.bucket = .done ∧ slot.Leads shifts depth lhe.current.toNat ∧
      es = slot.behind shifts depth lhe.current.toNat)

/-! ## One level -/

section Level

variable {shifts : List ℕ} {depth s : ℕ} {word : UInt64} {slots : ℕ → Slot α}

theorem index_of_mod {c c' : ℕ} (h : c' % 2 ^ (depth + s) = c % 2 ^ (depth + s)) :
    c' / 2 ^ depth % 2 ^ s = c / 2 ^ depth % 2 ^ s := by
  rw [← Nat.mod_mul_right_div_self, ← Nat.mod_mul_right_div_self c, ← Nat.pow_add, h]

theorem low_of_mod {c c' : ℕ} (h : c' % 2 ^ (depth + s) = c % 2 ^ (depth + s)) :
    c' % 2 ^ depth = c % 2 ^ depth := by
  have hdvd : 2 ^ depth ∣ 2 ^ (depth + s) := Nat.pow_dvd_pow 2 (by omega)
  rw [← Nat.mod_mod_of_dvd c' hdvd, h, Nat.mod_mod_of_dvd c hdvd]

/-- Visiting a level after its slot was visited. -/
theorem Visits.level {c n : ℕ} {e : UInt32 × α} {es : List (UInt32 × α)}
    {result : Option (Option α × Each α)} (hn : n = c / 2 ^ depth % 2 ^ shifts.headD 0)
    (h : Visits (slots n) shifts.tail (depth + shifts.headD 0) c (e :: es) result) :
    Visits (.level word slots) shifts depth c (e :: (es ++ entriesFrom slots shifts (n + 1)))
      result := by
  subst hn
  obtain ⟨lhe, hresult, hhash, hmod, hleads, held, hholds, rfl⟩ := h
  have hindex := index_of_mod hmod
  refine ⟨lhe, hresult, hhash, low_of_mod hmod, ?_, held, hholds, ?_⟩
  · rw [Slot.Leads, hindex]
    exact hleads
  · rw [Slot.behind, hindex, List.append_assoc]

/-- The loop returns an entry of the slot at the index. -/
theorem levelLoop_return {visit : ℕ → Each α → Option (Option α × Each α)} (hs : s < 64)
    (hdepth : depth < 32) {fuel n : ℕ} {lhe lhe' : Each α} {v : α}
    (hn : n = lhe.current.toNat / 2 ^ depth % 2 ^ s) (hvisit : visit n lhe = some (some v, lhe')) :
    levelLoop s depth visit (fuel + 1) lhe = some (some v, lhe') := by
  rw [levelLoop, levelIndex_toNat hs hdepth, ← hn, hvisit]
  rfl

/-- The loop goes on to the next slot with an iterator at the start of this slot. -/
theorem levelLoop_next {visit : ℕ → Each α → Option (Option α × Each α)} (hpos : 0 < s)
    (hfits : depth + s ≤ 32) {fuel n : ℕ} {lhe lhe' : Each α}
    (hn : n = lhe.current.toNat / 2 ^ depth % 2 ^ s)
    (hvisit : visit n lhe = some (none, lhe')) (hbucket : lhe'.bucket = .null)
    (hcurrent : lhe'.current.toNat = lhe.current.toNat % 2 ^ (depth + s)) :
    ∃ next, next.bucket = .null ∧
      next.current.toNat = lhe.current.toNat % 2 ^ depth + (n + 1) % 2 ^ s * 2 ^ depth ∧
      levelLoop s depth visit (fuel + 1) lhe =
        if n + 1 = 2 ^ s then some (none, next) else levelLoop s depth visit fuel next := by
  have hlt : n < 2 ^ s := hn ▸ Nat.mod_lt _ (Nat.two_pow_pos _)
  have hindex : (levelIndex lhe.current (levelMask s) depth).toNat = n := by
    rw [levelIndex_toNat (by omega) (by omega), hn]
  have hnext := nextIndex_toNat (hindex ▸ hlt) (by omega) (by omega : depth < 32)
  rw [hindex] at hnext
  have hlow := Nat.mod_lt lhe.current.toNat (Nat.two_pow_pos (depth + s))
  have hset := setIndex_toNat (by omega) (by omega : depth < 32) (hcurrent ▸ hlow)
    (Nat.mod_lt _ (Nat.two_pow_pos _)) hnext
  rw [hcurrent, Nat.mod_mod_of_dvd _ (Nat.pow_dvd_pow 2 (Nat.le_add_right ..))] at hset
  set bits := nextIndex (levelIndex lhe.current (levelMask s) depth) (levelMask s) depth
    with hbits
  refine ⟨{ lhe' with current := setIndex lhe'.current (levelMask s) depth bits }, hbucket,
    hset, ?_⟩
  simp only [levelLoop, hindex, hvisit, Option.bind_eq_bind, Option.bind_some, ← hbits]
  by_cases hlast : n + 1 = 2 ^ s
  · rw [hlast, Nat.mod_self, Nat.zero_mul] at hnext
    rw [if_neg (not_not.mpr (UInt64.toNat_inj.mp hnext)), if_pos hlast]
  · rw [Nat.mod_eq_of_lt (by omega)] at hnext
    have hne : bits ≠ 0 := by
      intro hzero
      rw [hzero] at hnext
      exact (Nat.mul_pos n.succ_pos (Nat.two_pow_pos depth)).ne hnext
    rw [if_pos hne, if_neg hlast]

/-- The word of an iterator at the start of a slot. -/
theorem index_start {c low : ℕ} {n : ℕ} (hc : c = low % 2 ^ depth + n * 2 ^ depth)
    (hn : n < 2 ^ s) :
    n = c / 2 ^ depth % 2 ^ s ∧ c < 2 ^ (depth + s) ∧ c % 2 ^ depth = low % 2 ^ depth := by
  have hlow := Nat.mod_lt low (Nat.two_pow_pos depth)
  refine ⟨?_, ?_, ?_⟩
  · rw [hc, Nat.add_mul_div_right _ _ (Nat.two_pow_pos _), Nat.div_eq_of_lt hlow, Nat.zero_add,
      Nat.mod_eq_of_lt hn]
  · rw [hc, Nat.pow_add, Nat.mul_comm (2 ^ depth)]
    have hmul : (n + 1) * 2 ^ depth ≤ 2 ^ s * 2 ^ depth := Nat.mul_le_mul_right _ hn
    rw [Nat.add_mul] at hmul
    omega
  · rw [hc, Nat.add_mul_mod_self_right, Nat.mod_mod]

/-- The loop goes through the slots from the index in the word on. -/
theorem levelLoop_spec {visit : ℕ → Each α → Option (Option α × Each α)}
    (hpos : 0 < shifts.headD 0) (hfits : depth + shifts.headD 0 ≤ 32)
    (hvisit : ∀ i < 2 ^ shifts.headD 0, ∀ lhe es,
      Due (slots i) shifts.tail (depth + shifts.headD 0) lhe es →
      Visits (slots i) shifts.tail (depth + shifts.headD 0) lhe.current.toNat es (visit i lhe))
    {fuel n : ℕ} {lhe : Each α} {es : List (UInt32 × α)}
    (hn : n = lhe.current.toNat / 2 ^ depth % 2 ^ shifts.headD 0)
    (hdue : Due (slots n) shifts.tail (depth + shifts.headD 0) lhe es)
    (hfuel : 2 ^ shifts.headD 0 ≤ fuel + n) :
    Visits (.level word slots) shifts depth lhe.current.toNat
      (es ++ entriesFrom slots shifts (n + 1))
      (levelLoop (shifts.headD 0) depth visit fuel lhe) := by
  have hlt : n < 2 ^ shifts.headD 0 := hn ▸ Nat.mod_lt _ (Nat.two_pow_pos _)
  induction fuel generalizing n lhe es with
  | zero => omega
  | succ fuel ih =>
    have hslot := hvisit n hlt lhe es hdue
    cases es with
    | cons e es =>
      have hlevel := @Visits.level _ _ _ word _ _ _ _ _ _ hn hslot
      obtain ⟨lhe', hresult, -⟩ := hslot
      rw [levelLoop_return (by omega) (by omega) hn hresult, ← hresult]
      exact hlevel
    | nil =>
      obtain ⟨lhe', hresult, hbucket, hcurrent⟩ := hslot
      obtain ⟨next, hnull, hnext, hloop⟩ :=
        levelLoop_next hpos hfits hn hresult hbucket hcurrent
      rw [hloop, List.nil_append]
      by_cases hlast : n + 1 = 2 ^ shifts.headD 0
      · rw [if_pos hlast, hlast, entriesFrom_end]
        rw [hlast, Nat.mod_self, Nat.zero_mul] at hnext
        exact ⟨next, rfl, hnull, hnext⟩
      · have hlt' : n + 1 < 2 ^ shifts.headD 0 := by omega
        rw [Nat.mod_eq_of_lt hlt'] at hnext
        obtain ⟨hn', hless, hmod⟩ := index_start hnext hlt'
        rw [if_neg hlast, entriesFrom_eq hlt']
        exact (ih hn' (Or.inl ⟨hnull, hless, rfl⟩) (by omega) hlt').congr hmod

end Level

/-! ## The whole tree -/

/-- A visit returns the first entry that is due, or nothing at all. -/
theorem slotEach_spec {fuel : ℕ} {slot : Slot α} {shifts : List ℕ} {depth : ℕ}
    (hok : slot.Ok shifts depth) (hfits : slot.Fits shifts depth)
    (hfuel : ∀ s ∈ shifts, 2 ^ s ≤ fuel) (lhe : Each α) (es : List (UInt32 × α))
    (hdue : Due slot shifts depth lhe es) :
    Visits slot shifts depth lhe.current.toNat es (slotEach fuel slot shifts depth lhe) := by
  induction slot generalizing shifts depth lhe es with
  | null =>
    rcases hdue with ⟨hbucket, hlt, rfl⟩ | ⟨-, hleads, -⟩
    · exact ⟨lhe, rfl, hbucket, (Nat.mod_eq_of_lt hlt).symm⟩
    · exact hleads.elim
  | bucket chain =>
    obtain ⟨b, chain, rfl⟩ := List.exists_cons_of_ne_nil hok.1
    obtain ⟨hb, hchain⟩ := List.forall_mem_cons.mp hok.2.1
    rw [slotEach, if_pos hb.word.isBucket]
    rcases hdue with ⟨hbucket, hlt, rfl⟩ | ⟨hbucket, hlt, rfl⟩
    · simp only [hbucket]
      set lhe' : Each α :=
        { lhe with bucket := .bucket b chain, entries := bucketEntries b.word, entry := 0 }
      have hholds : lhe'.Holds (chainEntries (b :: chain)) :=
        ⟨hb.pos, hb.le_occupied, hchain, rfl⟩
      obtain ⟨e, rest, lhe'', hes, heach, hhash, hholds', hcurrent⟩ := bucketEach_spec rfl hholds
      rw [Slot.entries, hes, heach]
      refine ⟨lhe'', rfl, hhash, by rw [hcurrent], ?_, rest, hholds', (List.append_nil _).symm⟩
      rw [hcurrent]
      exact hlt
    · simp only [hbucket]
      exact ⟨_, rfl, rfl, (Nat.mod_eq_of_lt hlt).symm⟩
  | level word slots ih =>
    obtain ⟨hlevel, -⟩ := Slot.ok_level_iff.mp hok
    obtain ⟨hdepth, hslots⟩ := hfits
    have hvisit := fun i hi lhe es => ih i (hlevel.slot_ok i) (hslots i hi)
      (fun s hs => hfuel s (List.mem_of_mem_tail hs)) lhe es
    have hfuel' : 2 ^ shifts.headD 0 ≤ fuel := by
      cases shifts with
      | nil => exact absurd hlevel.word.pos (lt_irrefl 0)
      | cons s shifts => exact hfuel s (by simp)
    rw [slotEach, if_neg (by rw [hlevel.word.not_isBucket]; exact Bool.false_ne_true)]
    rcases hdue with ⟨hbucket, hlt, rfl⟩ | ⟨hbucket, hleads, rfl⟩
    · have hzero : 0 = lhe.current.toNat / 2 ^ depth % 2 ^ shifts.headD 0 := by
        rw [Nat.div_eq_of_lt hlt, Nat.zero_mod]
      have hlt' : lhe.current.toNat < 2 ^ (depth + shifts.headD 0) :=
        lt_of_lt_of_le hlt (Nat.pow_le_pow_right (by decide) (Nat.le_add_right ..))
      have hall : (Slot.level word slots).entries shifts = entriesFrom slots shifts 0 := rfl
      rw [hall, entriesFrom_eq (Nat.two_pow_pos _)]
      exact levelLoop_spec hlevel.word.pos hdepth hvisit hzero (Or.inl ⟨hbucket, hlt', rfl⟩) hfuel'
    · exact levelLoop_spec hlevel.word.pos hdepth hvisit rfl (Or.inr ⟨hbucket, hleads, rfl⟩)
        (le_trans hfuel' (Nat.le_add_right ..))

section Table

variable {fuel : ℕ} {shifts : List ℕ} {lh : Slot α}

/-- What one call of `njs_lvlhsh_each` returns if the entries `es` are left. -/
def Calls (shifts : List ℕ) (lh : Slot α) (es : List (UInt32 × α))
    (result : Option (Option α × Each α)) : Prop :=
  match es with
  | [] => ∃ lhe, result = some (none, lhe)
  | e :: es => ∃ lhe, result = some (some e.2, lhe) ∧ lhe.keyHash = e.1 ∧
      Resumes lh shifts 0 lhe es

private theorem Visits.calls {c : ℕ} {es : List (UInt32 × α)}
    {result : Option (Option α × Each α)} (h : Visits lh shifts 0 c es result) :
    Calls shifts lh es result := by
  cases es with
  | nil =>
    obtain ⟨lhe, hresult, -⟩ := h
    exact ⟨lhe, hresult⟩
  | cons e es =>
    obtain ⟨lhe, hresult, hhash, -, hresumes⟩ := h
    exact ⟨lhe, hresult, hhash, hresumes⟩

private theorem each_init (hok : lh.Ok shifts 0) (hfits : lh.Fits shifts 0)
    (hfuel : ∀ s ∈ shifts, 2 ^ s ≤ fuel) :
    Calls shifts lh (lh.entries shifts) (each fuel shifts lh Each.init) := by
  have hdue : Due lh shifts 0 Each.init (lh.entries shifts) := Or.inl ⟨rfl, Nat.zero_lt_one, rfl⟩
  have hvisits := (slotEach_spec hok hfits hfuel _ _ hdue).calls
  cases lh with
  | null => exact hvisits
  | bucket chain =>
    obtain ⟨b, chain, rfl⟩ := List.exists_cons_of_ne_nil hok.1
    exact hvisits
  | level word slots => exact hvisits

/-- One call in the course of an iteration. -/
private theorem each_resumes (hok : lh.Ok shifts 0) (hfits : lh.Fits shifts 0)
    (hfuel : ∀ s ∈ shifts, 2 ^ s ≤ fuel) {lhe : Each α} {es : List (UInt32 × α)}
    (hresumes : Resumes lh shifts 0 lhe es) : Calls shifts lh es (each fuel shifts lh lhe) := by
  obtain ⟨hleads, held, hholds, rfl⟩ := hresumes
  rw [each.eq_def]
  cases hbucket : lhe.bucket with
  | null =>
    rw [Each.Holds, hbucket] at hholds
    exact hholds.elim
  | bucket b chain =>
    obtain ⟨e, rest, lhe', rfl, heach, hhash, hholds', hcurrent⟩ := bucketEach_spec hbucket hholds
    simp only [heach]
    exact ⟨lhe', rfl, hhash, hcurrent ▸ hleads, rest, hholds', by rw [hcurrent]; rfl⟩
  | done =>
    rw [Each.Holds, hbucket] at hholds
    subst hholds
    cases lh with
    | null => exact hleads.elim
    | bucket chain =>
      obtain ⟨b, chain, rfl⟩ := List.exists_cons_of_ne_nil hok.1
      have htag : isBucket (Slot.bucket (b :: chain)).word = true :=
        (hok.2.1 b (by simp)).word.isBucket
      simp only [if_pos htag]
      exact ⟨lhe, rfl⟩
    | level word slots =>
      exact (slotEach_spec hok hfits hfuel lhe _ (Or.inr ⟨hbucket, hleads, rfl⟩)).calls

/-- Repeated calls return all entries that are left. -/
private theorem eachAll_of_calls (hok : lh.Ok shifts 0) (hfits : lh.Fits shifts 0)
    (hfuel : ∀ s ∈ shifts, 2 ^ s ≤ fuel) {lhe : Each α} {es : List (UInt32 × α)}
    (hcalls : Calls shifts lh es (each fuel shifts lh lhe)) :
    eachAll fuel shifts lh (es.length + 1) lhe = some es := by
  induction es generalizing lhe with
  | nil =>
    obtain ⟨lhe', heach⟩ := hcalls
    simp [eachAll, heach]
  | cons e es ih =>
    obtain ⟨lhe', heach, hhash, hresumes⟩ := hcalls
    have hrest := ih (each_resumes hok hfits hfuel hresumes)
    rw [List.length_cons, eachAll]
    simp [heach, hrest, hhash]

/-- An iteration over a table whose indices fit in one word returns all entries in the
order of the slots, and then `NULL`. -/
theorem eachAll_spec (hok : lh.Ok shifts 0) (hfits : lh.Fits shifts 0)
    (hfuel : ∀ s ∈ shifts, 2 ^ s ≤ fuel) :
    eachAll fuel shifts lh ((lh.entries shifts).length + 1) Each.init = some (lh.entries shifts) :=
  eachAll_of_calls hok hfits hfuel (each_init hok hfits hfuel)

end Table

end Njs.Lvlhsh
