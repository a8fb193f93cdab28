import Njs.Lvlhsh.Iteration
import Njs.Lvlhsh.Refinement

/-!
# Which tables can be iterated

The word of an iterator has 32 bits. The levels of `NJS_LVLHSH_LARGE_SLAB` need 34, so
the index of a level at the depth of 30 bits never gets through: an iteration that
comes to such a level never leaves it.
-/

namespace Njs.Lvlhsh

variable {α : Type}

/-! ## Levels of the tree -/

namespace Slot

/-- There is a level `n` levels below this pointer. -/
def HasLevel : Slot α → List ℕ → ℕ → Prop
  | null, _, _ => False
  | bucket _, _, _ => False
  | level _ _, _, 0 => True
  | level _ slots, shifts, n + 1 =>
    ∃ i < 2 ^ shifts.headD 0, (slots i).HasLevel shifts.tail n

/-- The levels of a tree can be looked up. -/
instance decidableHasLevel : (slot : Slot α) → (shifts : List ℕ) → (n : ℕ) →
    Decidable (slot.HasLevel shifts n)
  | null, _, _ => isFalse id
  | bucket _, _, _ => isFalse id
  | level _ _, _, 0 => isTrue trivial
  | level _ slots, shifts, n + 1 =>
    have := fun i => decidableHasLevel (slots i) shifts.tail n
    inferInstanceAs (Decidable (∃ i < 2 ^ shifts.headD 0, (slots i).HasLevel shifts.tail n))

/-- Indices fit if there is no level behind the first shifts with at most 32 bits. -/
theorem fits_of_not_hasLevel {slot : Slot α} {pre post : List ℕ} {depth : ℕ}
    (hsum : depth + pre.sum ≤ 32) (hno : ¬slot.HasLevel (pre ++ post) pre.length) :
    slot.Fits (pre ++ post) depth := by
  induction slot generalizing pre depth with
  | null => trivial
  | bucket chain => trivial
  | level word slots ih =>
    cases pre with
    | nil => exact absurd trivial hno
    | cons s pre =>
      rw [List.sum_cons, ← Nat.add_assoc] at hsum
      refine ⟨le_trans (Nat.le_add_right _ _) hsum, fun i hi => ih i hsum fun hlevel => ?_⟩
      exact hno ⟨i, hi, hlevel⟩

/-- There is no level behind the last shift. -/
theorem Ok.not_hasLevel {slot : Slot α} {shifts : List ℕ} {depth : ℕ} (hok : slot.Ok shifts depth) :
    ¬slot.HasLevel shifts shifts.length := by
  induction slot generalizing shifts depth with
  | null => exact id
  | bucket chain => exact id
  | level word slots ih =>
    obtain ⟨hlevel, -⟩ := Slot.ok_level_iff.mp hok
    cases shifts with
    | nil => exact absurd hlevel.word.pos (lt_irrefl 0)
    | cons s shifts =>
      rintro ⟨i, -, hi⟩
      exact ih i (hlevel.slot_ok i) hi

/-- The word of an iterator does not lead beyond the first level `n` levels below. -/
def Ahead : Slot α → List ℕ → ℕ → ℕ → ℕ → Prop
  | null, _, _, _, _ => False
  | bucket _, _, _, _, _ => False
  | level _ _, _, _, 0, _ => True
  | level _ slots, shifts, depth, n + 1, c =>
    ∃ i < 2 ^ shifts.headD 0, (slots i).HasLevel shifts.tail n ∧
      (∀ j < i, ¬(slots j).HasLevel shifts.tail n) ∧
      (c / 2 ^ depth % 2 ^ shifts.headD 0 < i ∨
        c / 2 ^ depth % 2 ^ shifts.headD 0 = i ∧
          (slots i).Ahead shifts.tail (depth + shifts.headD 0) n c)

/-- At the start, a level is ahead. -/
theorem HasLevel.ahead {slot : Slot α} {shifts : List ℕ} {depth n c : ℕ}
    (hlevel : slot.HasLevel shifts n) (hc : c < 2 ^ depth) : slot.Ahead shifts depth n c := by
  classical
  induction slot generalizing shifts depth n with
  | null => exact hlevel
  | bucket chain => exact hlevel
  | level word slots ih =>
    cases n with
    | zero => trivial
    | succ n =>
      obtain ⟨hlt, hfirst⟩ := Nat.find_spec hlevel
      refine ⟨Nat.find hlevel, hlt, hfirst, fun j hj hj' => Nat.find_min hlevel hj
        ⟨hj.trans hlt, hj'⟩, ?_⟩
      rw [Nat.div_eq_of_lt hc, Nat.zero_mod]
      rcases Nat.eq_zero_or_pos (Nat.find hlevel) with hzero | hpos
      · refine Or.inr ⟨hzero.symm, ih _ hfirst (lt_of_lt_of_le hc ?_)⟩
        exact Nat.pow_le_pow_right (by decide) (Nat.le_add_right ..)
      · exact Or.inl hpos

end Slot

/-! ## Iterations that do not end -/

/-- An iterator that has not passed the first level `n` levels below a pointer. -/
structure Underway (slot : Slot α) (shifts : List ℕ) (depth n : ℕ) (lhe : Each α) : Prop where
  leads : slot.Leads shifts depth lhe.current.toNat
  holds : ∃ held, lhe.Holds held
  ahead : slot.Ahead shifts depth n lhe.current.toNat

/-- A visit that returns always returns an entry, and has not passed that level. -/
def Endless (slot : Slot α) (shifts : List ℕ) (depth n c : ℕ)
    (result : Option (Option α × Each α)) : Prop :=
  ∀ r, result = some r → ∃ v lhe, r = (some v, lhe) ∧
    lhe.current.toNat % 2 ^ depth = c % 2 ^ depth ∧ Underway slot shifts depth n lhe

/-- A visit that returns an entry. -/
theorem Endless.of_return {slot : Slot α} {shifts : List ℕ} {depth n c : ℕ} {v : α} {lhe : Each α}
    (hmod : lhe.current.toNat % 2 ^ depth = c % 2 ^ depth)
    (hunderway : Underway slot shifts depth n lhe) :
    Endless slot shifts depth n c (some (some v, lhe)) := by
  rintro r hr
  exact ⟨v, lhe, (Option.some.inj hr).symm, hmod, hunderway⟩

/-- The loop of a level whose index leaves the word never ends without an entry. -/
theorem levelLoop_endless {visit : ℕ → Each α → Option (Option α × Each α)} {shifts : List ℕ}
    {depth : ℕ} {word : UInt64} {slots : ℕ → Slot α} (hdepth : depth < 32)
    (hover : 32 < depth + shifts.headD 0) (hwide : depth + shifts.headD 0 < 64)
    (hvisit : ∀ i lhe es, Due (slots i) shifts.tail (depth + shifts.headD 0) lhe es →
      Visits (slots i) shifts.tail (depth + shifts.headD 0) lhe.current.toNat es (visit i lhe))
    {fuel n : ℕ} {lhe : Each α} {es : List (UInt32 × α)}
    (hn : n = lhe.current.toNat / 2 ^ depth % 2 ^ shifts.headD 0)
    (hdue : Due (slots n) shifts.tail (depth + shifts.headD 0) lhe es) :
    Endless (.level word slots) shifts depth 0 lhe.current.toNat
      (levelLoop (shifts.headD 0) depth visit fuel lhe) := by
  induction fuel generalizing n lhe es with
  | zero => simp [Endless, levelLoop]
  | succ fuel ih =>
    have hslot := hvisit n lhe es hdue
    cases es with
    | cons e es =>
      obtain ⟨lhe', hresult, -, hmod, hresumes⟩ := hslot.level hn
      obtain ⟨held, hholds, -⟩ := hresumes.holds
      rw [levelLoop_return (by omega) hdepth hn hresult]
      exact .of_return hmod ⟨hresumes.leads, ⟨held, hholds⟩, trivial⟩
    | nil =>
      obtain ⟨lhe', hresult, hbucket, hcurrent⟩ := hslot
      have hword : ∀ c : UInt32, c.toNat < 2 ^ (depth + shifts.headD 0) := fun c =>
        lt_of_lt_of_le c.toNat_lt (Nat.pow_le_pow_right (by decide) hover.le)
      rw [Nat.mod_eq_of_lt (hword _)] at hcurrent
      -- The index is below the bound of the level, so its successor is not zero.
      have hindex : (levelIndex lhe.current (levelMask (shifts.headD 0)) depth).toNat = n := by
        rw [levelIndex_toNat (by omega) hdepth, hn]
      have hsmall : n + 1 < 2 ^ shifts.headD 0 := by
        have hquot : lhe.current.toNat / 2 ^ depth < 2 ^ (32 - depth) := by
          rw [Nat.div_lt_iff_lt_mul (Nat.two_pow_pos _), ← Nat.pow_add,
            Nat.sub_add_cancel hdepth.le]
          exact lhe.current.toNat_lt
        have hpow : 2 ^ (32 - depth + 1) ≤ 2 ^ shifts.headD 0 :=
          Nat.pow_le_pow_right (by decide) (by omega)
        have hle := hn ▸ Nat.mod_le (lhe.current.toNat / 2 ^ depth) (2 ^ shifts.headD 0)
        rw [Nat.pow_succ] at hpow
        omega
      have hnext := nextIndex_toNat (hindex ▸ (by omega : n < 2 ^ shifts.headD 0)) (by omega)
        hdepth
      rw [hindex, Nat.mod_eq_of_lt hsmall] at hnext
      set bits := nextIndex (levelIndex lhe.current (levelMask (shifts.headD 0)) depth)
        (levelMask (shifts.headD 0)) depth with hbits
      have hne : bits ≠ 0 := by
        intro hzero
        rw [hzero] at hnext
        exact (Nat.mul_pos n.succ_pos (Nat.two_pow_pos depth)).ne hnext
      have hmod : (setIndex lhe'.current (levelMask (shifts.headD 0)) depth bits).toNat %
        2 ^ depth =
          lhe.current.toNat % 2 ^ depth := by
        rw [setIndex_mod (by omega) hdepth hnext, hcurrent]
      simp only [levelLoop, hindex, hresult, Option.bind_eq_bind, Option.bind_some, ← hbits,
        if_pos hne]
      set next : Each α :=
        { lhe' with current := setIndex lhe'.current (levelMask (shifts.headD 0)) depth bits }
      have hdue' : ∀ i, Due (slots i) shifts.tail (depth + shifts.headD 0) next
          ((slots i).entries shifts.tail) := fun i => Or.inl ⟨hbucket, hword _, rfl⟩
      rintro r hr
      obtain ⟨v, lhe'', hret, hmod', hunderway⟩ := ih rfl (hdue' _) r hr
      exact ⟨v, lhe'', hret, hmod'.trans hmod, hunderway⟩

/-- An iterator that comes to a pointer and has not passed that level. -/
def Ready (slot : Slot α) (shifts : List ℕ) (depth n : ℕ) (lhe : Each α) : Prop :=
  (lhe.bucket = .null ∧ lhe.current.toNat < 2 ^ depth ∧ slot.HasLevel shifts n) ∨
    (lhe.bucket = .done ∧ Underway slot shifts depth n lhe)

/-- An iterator before the slot with that level goes on until it comes to this slot. -/
theorem levelLoop_ahead {visit : ℕ → Each α → Option (Option α × Each α)} {shifts : List ℕ}
    {depth m i : ℕ} {word : UInt64} {slots : ℕ → Slot α} (hpos : 0 < shifts.headD 0)
    (hfits : depth + shifts.headD 0 ≤ 32) (hi : i < 2 ^ shifts.headD 0)
    (hlevel : (slots i).HasLevel shifts.tail m)
    (hfirst : ∀ j < i, ¬(slots j).HasLevel shifts.tail m)
    (hgood : ∀ j < i, ∀ lhe es, Due (slots j) shifts.tail (depth + shifts.headD 0) lhe es →
      Visits (slots j) shifts.tail (depth + shifts.headD 0) lhe.current.toNat es (visit j lhe))
    (hbad : ∀ lhe, Ready (slots i) shifts.tail (depth + shifts.headD 0) m lhe →
      Endless (slots i) shifts.tail (depth + shifts.headD 0) m lhe.current.toNat (visit i lhe))
    {fuel n : ℕ} {lhe : Each α} (hn : n = lhe.current.toNat / 2 ^ depth % 2 ^ shifts.headD 0)
    (hready : (n < i ∧ ∃ es, Due (slots n) shifts.tail (depth + shifts.headD 0) lhe es) ∨
      (n = i ∧ Ready (slots i) shifts.tail (depth + shifts.headD 0) m lhe)) :
    Endless (.level word slots) shifts depth (m + 1) lhe.current.toNat
      (levelLoop (shifts.headD 0) depth visit fuel lhe) := by
  induction fuel generalizing n lhe with
  | zero => simp [Endless, levelLoop]
  | succ fuel ih =>
    rcases hready with ⟨hlt, es, hdue⟩ | ⟨rfl, hready⟩
    · have hslot := hgood n hlt lhe es hdue
      cases es with
      | cons e es =>
        obtain ⟨lhe', hresult, -, hmod, hresumes⟩ := hslot
        obtain ⟨held, hholds, -⟩ := hresumes.holds
        have hindex := index_of_mod hmod
        rw [levelLoop_return (by omega) (by omega) hn hresult]
        refine .of_return (low_of_mod hmod) ⟨?_, ⟨held, hholds⟩, i, hi, hlevel, hfirst, Or.inl ?_⟩
        · rw [Slot.Leads, hindex, ← hn]
          exact hresumes.leads
        · rwa [hindex, ← hn]
      | nil =>
        obtain ⟨lhe', hresult, hbucket, hcurrent⟩ := hslot
        obtain ⟨next, hnull, hnext, hloop⟩ :=
          levelLoop_next hpos hfits hn hresult hbucket hcurrent
        have hlt' : n + 1 < 2 ^ shifts.headD 0 := by omega
        rw [Nat.mod_eq_of_lt hlt'] at hnext
        obtain ⟨hn', hless, hmod⟩ := index_start hnext hlt'
        rw [hloop, if_neg hlt'.ne]
        have hready' : (n + 1 < i ∧ ∃ es, Due (slots (n + 1)) shifts.tail
            (depth + shifts.headD 0) next es) ∨
            (n + 1 = i ∧ Ready (slots i) shifts.tail (depth + shifts.headD 0) m next) := by
          rcases Nat.lt_or_eq_of_le hlt with hbefore | hat
          · exact Or.inl ⟨hbefore, _, Or.inl ⟨hnull, hless, rfl⟩⟩
          · exact Or.inr ⟨hat, Or.inl ⟨hnull, hless, hlevel⟩⟩
        rintro r hr
        obtain ⟨v, lhe'', hret, hmod', hunderway⟩ := ih hn' hready' r hr
        exact ⟨v, lhe'', hret, hmod'.trans hmod, hunderway⟩
    · have hslot := hbad lhe hready
      cases hresult : visit n lhe with
      | none =>
        have hnone : levelLoop (shifts.headD 0) depth visit (fuel + 1) lhe = none := by
          rw [levelLoop, levelIndex_toNat (by omega) (by omega), ← hn, hresult]
          rfl
        rw [hnone]
        rintro r hr
        cases hr
      | some r =>
        obtain ⟨v, lhe', rfl, hmod, hunderway⟩ := hslot r hresult
        have hindex := index_of_mod hmod
        rw [levelLoop_return (by omega) (by omega) hn hresult]
        refine .of_return (low_of_mod hmod)
          ⟨?_, hunderway.holds, n, hi, hlevel, hfirst, Or.inr ⟨?_, hunderway.ahead⟩⟩
        · rw [Slot.Leads, hindex, ← hn]
          exact hunderway.leads
        · rw [hindex, ← hn]

/-- The level behind some shifts is the last one, and its index begins inside the word
and ends outside. -/
structure Overflows (pre : List ℕ) (s : ℕ) (post : List ℕ) (depth : ℕ) : Prop where
  starts : depth + pre.sum < 32
  ends : 32 < depth + pre.sum + s
  wide : depth + pre.sum + s < 64
  last : post.headD 0 = 0

/-- A visit of a pointer with such a level ahead returns entries only. -/
theorem slotEach_endless {fuel : ℕ} {slot : Slot α} {pre post : List ℕ} {s depth : ℕ}
    (hok : slot.Ok (pre ++ s :: post) depth) (hover : Overflows pre s post depth)
    (hfuel : ∀ t ∈ pre ++ s :: post, 2 ^ t ≤ fuel) (lhe : Each α)
    (hready : Ready slot (pre ++ s :: post) depth pre.length lhe) :
    Endless slot (pre ++ s :: post) depth pre.length lhe.current.toNat
      (slotEach fuel slot (pre ++ s :: post) depth lhe) := by
  induction slot generalizing pre depth lhe with
  | null =>
    rcases hready with ⟨-, -, hlevel⟩ | ⟨-, hunderway⟩
    · exact hlevel.elim
    · exact hunderway.leads.elim
  | bucket chain =>
    rcases hready with ⟨-, -, hlevel⟩ | ⟨-, hunderway⟩
    · exact hlevel.elim
    · exact hunderway.ahead.elim
  | level word slots ih =>
    obtain ⟨hlevel, -⟩ := Slot.ok_level_iff.mp hok
    rw [slotEach, if_neg (by rw [hlevel.word.not_isBucket]; exact Bool.false_ne_true)]
    cases pre with
    | nil =>
      have hdepth : depth < 32 := hover.starts
      have hends : 32 < depth + (s :: post).headD 0 := hover.ends
      have hwide : depth + (s :: post).headD 0 < 64 := hover.wide
      have hfits : ∀ j, (slots j).Fits post (depth + s) := by
        intro j
        have hslot_ok := hlevel.slot_ok j
        cases hslot : slots j with
        | null => trivial
        | bucket chain => trivial
        | level word' slots' =>
          rw [hslot] at hslot_ok
          have hpos := (Slot.ok_level_iff.mp hslot_ok).1.word.pos
          exact absurd hover.last hpos.ne'
      have hvisit := fun j lhe es => slotEach_spec (hlevel.slot_ok j) (hfits j)
        (fun t ht => hfuel t (List.mem_cons_of_mem _ ht)) lhe es
      rcases hready with ⟨hbucket, hlt, -⟩ | ⟨hbucket, hunderway⟩
      · refine levelLoop_endless hdepth hends hwide hvisit rfl (Or.inl ⟨hbucket, ?_, rfl⟩)
        exact lt_of_lt_of_le hlt (Nat.pow_le_pow_right (by decide) (Nat.le_add_right ..))
      · exact levelLoop_endless hdepth hends hwide hvisit rfl
          (Or.inr ⟨hbucket, hunderway.leads, rfl⟩)
    | cons t pre =>
      have hover' : Overflows pre s post (depth + t) := by
        obtain ⟨hstarts, hends, hwide, hlast⟩ := hover
        rw [List.sum_cons, ← Nat.add_assoc] at hstarts hends hwide
        exact ⟨hstarts, hends, hwide, hlast⟩
      have hfits : depth + t ≤ 32 := le_trans (Nat.le_add_right _ _) hover'.starts.le
      have hfuel' : ∀ u ∈ pre ++ s :: post, 2 ^ u ≤ fuel :=
        fun u hu => hfuel u (List.mem_cons_of_mem _ hu)
      have hahead : (Slot.level word slots).Ahead (t :: pre ++ s :: post) depth (pre.length + 1)
          lhe.current.toNat := by
        rcases hready with ⟨-, hlt, hdeep⟩ | ⟨-, hunderway⟩
        · exact hdeep.ahead hlt
        · exact hunderway.ahead
      obtain ⟨i, hi, hdeep, hfirst, hindex⟩ := hahead
      have hgood := fun j hj lhe es => slotEach_spec (hlevel.slot_ok j)
        (Slot.fits_of_not_hasLevel hover'.starts.le (hfirst j hj)) hfuel' lhe es
      have hbad := fun lhe => ih i (hlevel.slot_ok i) hover' hfuel' lhe
      refine levelLoop_ahead hlevel.word.pos hfits hi hdeep hfirst hgood hbad rfl ?_
      rcases hready with ⟨hbucket, hlt, -⟩ | ⟨hbucket, hunderway⟩
      · have hlt' : lhe.current.toNat < 2 ^ (depth + t) :=
          lt_of_lt_of_le hlt (Nat.pow_le_pow_right (by decide) (Nat.le_add_right ..))
        rcases hindex with hbefore | ⟨hat, -⟩
        · exact Or.inl ⟨hbefore, _, Or.inl ⟨hbucket, hlt', rfl⟩⟩
        · exact Or.inr ⟨hat, Or.inl ⟨hbucket, hlt', hdeep⟩⟩
      · rcases hindex with hbefore | ⟨hat, hahead⟩
        · exact Or.inl ⟨hbefore, _, Or.inr ⟨hbucket, hunderway.leads, rfl⟩⟩
        · exact Or.inr ⟨hat, Or.inr ⟨hbucket, hat ▸ hunderway.leads, hunderway.holds, hahead⟩⟩

/-! ## Whole iterations -/

section Table

variable {fuel : ℕ} {lh : Slot α} {pre post : List ℕ} {s : ℕ}

private theorem each_of_underway (hok : lh.Ok (pre ++ s :: post) 0)
    (hover : Overflows pre s post 0) (hfuel : ∀ t ∈ pre ++ s :: post, 2 ^ t ≤ fuel) {lhe : Each α}
    (hunderway : Underway lh (pre ++ s :: post) 0 pre.length lhe) :
    Endless lh (pre ++ s :: post) 0 pre.length lhe.current.toNat
      (each fuel (pre ++ s :: post) lh lhe) := by
  obtain ⟨hleads, ⟨held, hholds⟩, hahead⟩ := id hunderway
  rw [each.eq_def]
  cases hbucket : lhe.bucket with
  | null =>
    rw [Each.Holds, hbucket] at hholds
    exact hholds.elim
  | bucket b chain =>
    obtain ⟨e, rest, lhe', -, heach, -, hholds', hcurrent⟩ := bucketEach_spec hbucket hholds
    simp only [heach]
    exact .of_return (by rw [hcurrent]) ⟨hcurrent ▸ hleads, ⟨rest, hholds'⟩, hcurrent ▸ hahead⟩
  | done =>
    cases lh with
    | null => exact hleads.elim
    | bucket chain => exact hahead.elim
    | level word slots =>
      exact slotEach_endless hok hover hfuel lhe (Or.inr ⟨hbucket, hunderway⟩)

private theorem each_init_endless (hok : lh.Ok (pre ++ s :: post) 0)
    (hover : Overflows pre s post 0) (hfuel : ∀ t ∈ pre ++ s :: post, 2 ^ t ≤ fuel)
    (hlevel : lh.HasLevel (pre ++ s :: post) pre.length) :
    Endless lh (pre ++ s :: post) 0 pre.length 0 (each fuel (pre ++ s :: post) lh Each.init) := by
  have hslot := slotEach_endless hok hover hfuel Each.init
    (Or.inl ⟨rfl, Nat.zero_lt_one, hlevel⟩)
  cases lh with
  | null => exact hlevel.elim
  | bucket chain => exact hlevel.elim
  | level word slots => exact hslot

/-- No number of calls ends in `NULL`. -/
private theorem eachAll_of_endless (hok : lh.Ok (pre ++ s :: post) 0)
    (hover : Overflows pre s post 0) (hfuel : ∀ t ∈ pre ++ s :: post, 2 ^ t ≤ fuel) (calls : ℕ)
    {lhe : Each α} {c : ℕ}
    (hendless : Endless lh (pre ++ s :: post) 0 pre.length c
      (each fuel (pre ++ s :: post) lh lhe)) :
    eachAll fuel (pre ++ s :: post) lh calls lhe = none := by
  induction calls generalizing lhe c with
  | zero => rfl
  | succ calls ih =>
    rw [eachAll]
    cases hresult : each fuel (pre ++ s :: post) lh lhe with
    | none => rfl
    | some r =>
      obtain ⟨v, lhe', rfl, -, hunderway⟩ := hendless r hresult
      have hrest := ih (each_of_underway hok hover hfuel hunderway)
      simp [hrest]

end Table

variable {κ : Type} [DecidableEq κ] {keyOf : α → κ} {hash : κ → UInt32} {m : κ → Option α}

/-- With enough fuel for its loops, an iteration returns every binding of a map once,
with its hash, and then `NULL`. -/
def Enumerates (keyOf : α → κ) (hash : κ → UInt32) (shifts : List ℕ) (lh : Slot α)
    (m : κ → Option α) : Prop :=
  ∃ enough, ∀ fuel ≥ enough, ∃ calls es,
    eachAll fuel shifts lh calls Each.init = some es ∧ IsMapOf keyOf hash es m

private theorem exists_fuel (shifts : List ℕ) : ∃ enough, ∀ s ∈ shifts, 2 ^ s ≤ enough := by
  induction shifts with
  | nil => exact ⟨0, by simp⟩
  | cons s shifts ih =>
    obtain ⟨enough, h⟩ := ih
    refine ⟨max (2 ^ s) enough, List.forall_mem_cons.mpr ⟨le_max_left .., fun t ht => ?_⟩⟩
    exact (h t ht).trans (le_max_right ..)

omit [DecidableEq κ] in
theorem enumerates_of_fits {shifts : List ℕ} {lh : Slot α} (hok : lh.Ok shifts 0)
    (hmap : IsMapOf keyOf hash (lh.entries shifts) m) (hfits : lh.Fits shifts 0) :
    Enumerates keyOf hash shifts lh m := by
  obtain ⟨enough, hfuel⟩ := exists_fuel shifts
  exact ⟨enough, fun fuel hle => ⟨_, _, eachAll_spec hok hfits fun s hs => (hfuel s hs).trans hle,
    hmap⟩⟩

omit [DecidableEq κ] in
theorem not_enumerates_of_hasLevel {pre post : List ℕ} {s : ℕ} {lh : Slot α}
    (hok : lh.Ok (pre ++ s :: post) 0) (hover : Overflows pre s post 0)
    (hlevel : lh.HasLevel (pre ++ s :: post) pre.length) :
    ¬Enumerates keyOf hash (pre ++ s :: post) lh m := by
  rintro ⟨enough, h⟩
  obtain ⟨enough', hfuel'⟩ := exists_fuel (pre ++ s :: post)
  obtain ⟨calls, es, hes, -⟩ := h (max enough enough') (le_max_left ..)
  have hfuel : ∀ t ∈ pre ++ s :: post, 2 ^ t ≤ max enough enough' :=
    fun t ht => (hfuel' t ht).trans (le_max_right ..)
  rw [eachAll_of_endless hok hover hfuel calls (each_init_endless hok hover hfuel hlevel)] at hes
  cases hes

/-- The seventh level of `NJS_LVLHSH_LARGE_SLAB` has the bits from 30 to 33. -/
theorem largeSlab_overflows : Overflows [10, 4, 4, 4, 4, 4] 4 [0] 0 :=
  ⟨by decide, by decide, by decide, rfl⟩

omit [DecidableEq κ] in
/-- The tables that can be iterated. -/
theorem enumerates_iff (layout : Layout) {lh : Slot α} (hok : lh.Ok layout.shift 0)
    (hmap : IsMapOf keyOf hash (lh.entries layout.shift) m) :
    Enumerates keyOf hash layout.shift lh m ↔
      (layout = .largeSlab → ¬lh.HasLevel layout.shift 6) := by
  have hfits : layout.shift.sum ≤ 32 → lh.Fits layout.shift 0 := by
    intro hsum
    have hall : lh.Fits (layout.shift ++ []) 0 := by
      refine Slot.fits_of_not_hasLevel (by rwa [Nat.zero_add]) ?_
      rw [List.append_nil]
      exact hok.not_hasLevel
    rwa [List.append_nil] at hall
  cases layout with
  | default =>
    exact iff_of_true (enumerates_of_fits hok hmap (hfits (by decide))) (by simp)
  | largeMemalign memalignShift =>
    refine iff_of_true (enumerates_of_fits hok hmap (hfits ?_)) (by simp)
    simp only [Layout.shift]
    split
    · simp only [List.sum_cons, List.sum_nil]
      omega
    · decide
  | largeSlab =>
    constructor
    · rintro h - hlevel
      exact not_enumerates_of_hasLevel hok largeSlab_overflows hlevel h
    · intro h
      exact enumerates_of_fits hok hmap
        (Slot.fits_of_not_hasLevel largeSlab_overflows.starts.le (h rfl))

/-- The address of the next 8192 bytes. -/
def bumpAddress (h : Lib.History Block) : UInt64 := ((h.length + 1) * 8192).toUInt64

/-- An allocator that answers with the next 8192 bytes, up to some time. -/
def bump {β : Type} (limit : ℕ) : Allocator β where
  answer h size :=
    if h.length < limit ∧ size ∣ (bumpAddress h).toNat ∧
        ∀ b ∈ h.live, b.address ≠ bumpAddress h then
      some (bumpAddress h)
    else none
  stale _ _ := ⟨none, 0⟩
  aligned hp := by
    obtain ⟨hcond, hp⟩ := Option.ite_none_right_eq_some.mp hp
    exact Option.some.inj hp ▸ hcond.2.1
  fresh hp := by
    obtain ⟨hcond, hp⟩ := Option.ite_none_right_eq_some.mp hp
    exact Option.some.inj hp ▸ hcond.2.2

end Njs.Lvlhsh
