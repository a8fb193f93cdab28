import Njs.Lvlhsh.Insert
import Njs.Lvlhsh.Lookup

/-!
# The table as a finite map

Sequences of operations on a table answer exactly as a map from keys to values does,
for every hash function, every layout and every allocator.
-/

namespace Njs.Lvlhsh

open Lib

variable {κ α : Type} [DecidableEq κ]

/-- The operations on a table. -/
inductive Op (κ α : Type)
  | find (k : κ)
  | insert (v : α) (replace : Bool)
  | delete (k : κ)

/-- What an operation returns: its code and the field `lhq->value`. -/
structure Reply (α : Type) where
  status : Status
  value : Option α

section Runs

variable (keyOf : α → κ) (hash : κ → UInt32) (A : Allocator α) (shifts : List ℕ)

/-- One operation, with its query filled in as the source requires. -/
def step (lh : Slot α) : Op κ α → Memory (Reply α × Slot α)
  | .find k => do
    let (status, value) ← lift (find keyOf shifts lh ⟨hash k, some k, false, none⟩)
    pure (⟨status, value⟩, lh)
  | .insert v replace => do
    let r ← insert keyOf A shifts lh ⟨hash (keyOf v), some (keyOf v), replace, some v⟩
    pure (⟨r.status, r.value⟩, r.slot)
  | .delete k => do
    let (status, value, lh) ← delete keyOf shifts lh ⟨hash k, some k, false, none⟩
    pure (⟨status, value⟩, lh)

/-- A sequence of operations. -/
def run (lh : Slot α) : List (Op κ α) → Memory (List (Reply α) × Slot α)
  | [] => pure ([], lh)
  | op :: ops => do
    let (reply, lh) ← step keyOf hash A shifts lh op
    let (replies, lh) ← run lh ops
    pure (reply :: replies, lh)

end Runs

/-! ## The abstract map -/

section AbstractMap

variable (keyOf : α → κ)

/-- What a map answers to an operation, and the map after it. Adding a new key may fail. -/
def MapStep (m : κ → Option α) (m' : κ → Option α) (reply : Reply α) : Op κ α → Prop
  | .find k =>
    m' = m ∧ match m k with
      | some v => reply = ⟨.ok, some v⟩
      | none => reply = ⟨.declined, none⟩
  | .insert v replace =>
    match m (keyOf v) with
    | some old =>
      if replace then reply = ⟨.ok, some old⟩ ∧ m' = Function.update m (keyOf v) (some v)
      else reply = ⟨.declined, some old⟩ ∧ m' = m
    | none =>
      (reply = ⟨.ok, some v⟩ ∧ m' = Function.update m (keyOf v) (some v)) ∨
        (reply = ⟨.error, some v⟩ ∧ m' = m)
  | .delete k =>
    match m k with
    | some v => reply = ⟨.ok, some v⟩ ∧ m' = Function.update m k none
    | none => reply = ⟨.declined, none⟩ ∧ m' = m

/-- What a map answers to a sequence of operations. -/
inductive MapRun : (κ → Option α) → List (Op κ α) → List (Reply α) → (κ → Option α) → Prop
  | nil (m) : MapRun m [] [] m
  | cons {m m' m'' op reply ops replies} : MapStep keyOf m m' reply op →
      MapRun m' ops replies m'' → MapRun m (op :: ops) (reply :: replies) m''

end AbstractMap

/-- The number of replies that report an error. -/
def errors (replies : List (Reply α)) : ℕ := replies.countP fun r => r.status = .error

/-! ## Entries as a map -/

/-- A list of entries holds the bindings of a map, each once and with its hash. -/
structure IsMapOf (keyOf : α → κ) (hash : κ → UInt32) (es : List (UInt32 × α))
    (m : κ → Option α) : Prop where
  hash_eq : ∀ e ∈ es, e.1 = hash (keyOf e.2)
  nodup : (es.map fun e => keyOf e.2).Nodup
  bound_iff : ∀ k v, m k = some v ↔ (hash k, v) ∈ es ∧ keyOf v = k

namespace IsMapOf

variable {keyOf : α → κ} {hash : κ → UInt32} {es fs : List (UInt32 × α)} {m : κ → Option α} {k : κ}
  {v w : α}

omit [DecidableEq κ] in
theorem perm (h : IsMapOf keyOf hash es m) (hp : es.Perm fs) : IsMapOf keyOf hash fs m :=
  ⟨fun e he => h.hash_eq e (hp.mem_iff.mpr he), (hp.map _).nodup_iff.mp h.nodup,
    fun k v => by rw [h.bound_iff, hp.mem_iff]⟩

omit [DecidableEq κ] in
theorem nil : IsMapOf keyOf hash [] fun _ => none :=
  ⟨by simp, by simp, by simp⟩

/-- Adding a binding of a new key. -/
theorem cons (h : IsMapOf keyOf hash es m) (hm : m (keyOf w) = none) :
    IsMapOf keyOf hash ((hash (keyOf w), w) :: es) (Function.update m (keyOf w) (some w)) := by
  have hnew : ∀ e ∈ es, keyOf e.2 ≠ keyOf w := by
    intro e he hkey
    have hbound := (h.bound_iff (keyOf w) e.2).mpr
      ⟨by rw [← hkey, ← h.hash_eq e he]; exact he, hkey⟩
    rw [hm] at hbound
    cases hbound
  refine ⟨List.forall_mem_cons.mpr ⟨rfl, h.hash_eq⟩, ?_, fun k v => ?_⟩
  · rw [List.map_cons, List.nodup_cons]
    refine ⟨fun hmem => ?_, h.nodup⟩
    obtain ⟨e, he, hkey⟩ := List.mem_map.mp hmem
    exact hnew e he hkey
  · by_cases hk : k = keyOf w
    · subst hk
      rw [Function.update_self, Option.some.injEq, List.mem_cons]
      constructor
      · rintro rfl
        exact ⟨Or.inl rfl, rfl⟩
      · rintro ⟨hmem | hmem, hkey⟩
        · exact (Prod.mk.inj hmem).2.symm
        · exact absurd hkey (hnew _ hmem)
    · rw [Function.update_of_ne hk, h.bound_iff, List.mem_cons]
      constructor
      · rintro ⟨hmem, hkey⟩
        exact ⟨Or.inr hmem, hkey⟩
      · rintro ⟨hmem | hmem, hkey⟩
        · exact absurd (hkey.symm.trans (congrArg keyOf (Prod.mk.inj hmem).2)) hk
        · exact ⟨hmem, hkey⟩

/-- Removing a binding. -/
theorem uncons (h : IsMapOf keyOf hash ((hash k, v) :: es) m) (hk : keyOf v = k) :
    m k = some v ∧ IsMapOf keyOf hash es (Function.update m k none) := by
  subst hk
  obtain ⟨hnot, hnodup⟩ := List.nodup_cons.mp h.nodup
  refine ⟨(h.bound_iff _ _).mpr ⟨by simp, rfl⟩,
    fun e he => h.hash_eq e (List.mem_cons_of_mem _ he), hnodup, fun k' v' => ?_⟩
  by_cases hk' : k' = keyOf v
  · subst hk'
    rw [Function.update_self]
    refine iff_of_false (by simp) ?_
    rintro ⟨hmem, hkey⟩
    exact hnot (List.mem_map.mpr ⟨_, hmem, hkey⟩)
  · rw [Function.update_of_ne hk', h.bound_iff, List.mem_cons]
    constructor
    · rintro ⟨hmem | hmem, hkey⟩
      · exact absurd (hkey.symm.trans (congrArg keyOf (Prod.mk.inj hmem).2)) hk'
      · exact ⟨hmem, hkey⟩
    · rintro ⟨hmem, hkey⟩
      exact ⟨Or.inr hmem, hkey⟩

omit [DecidableEq κ] in
/-- A key without a matching entry is not bound. -/
theorem eq_none (h : IsMapOf keyOf hash es m) {q : Query κ α} (hq : q.keyHash = hash k)
    (hk : q.key = some k) (hno : ∀ e ∈ es, ¬Matches keyOf q e) : m k = none := by
  cases hm : m k with
  | none => rfl
  | some v =>
    obtain ⟨hmem, hkey⟩ := (h.bound_iff k v).mp hm
    exact absurd ⟨hq.symm, by rw [hk, hkey]⟩ (hno _ hmem)

end IsMapOf

/-- A table holds the bindings of a map. -/
structure Represents (keyOf : α → κ) (hash : κ → UInt32) (shifts : List ℕ) (lh : Slot α)
    (m : κ → Option α) : Prop where
  ok : lh.Ok shifts 0
  isMapOf : IsMapOf keyOf hash (lh.entries shifts) m

section Refinement

variable {keyOf : α → κ} {hash : κ → UInt32} {A : Allocator α} {shifts : List ℕ} {lh : Slot α}
  {m : κ → Option α} {h base : History Block} {frame : List Block}

/-- What one operation leaves: the table holds the bindings of the map after the
operation and owns its blocks, and an error comes with a refusal. -/
def Simulates (keyOf : α → κ) (hash : κ → UInt32) (shifts : List ℕ) (base : History Block)
    (frame : List Block) (m : κ → Option α) (op : Op κ α) (r : Reply α × Slot α)
    (h : History Block) : Prop :=
  ∃ m', MapStep keyOf m m' r.1 op ∧ Represents keyOf hash shifts r.2 m' ∧
    h.Owns base (r.2.blocks shifts ++ frame) ∧
    (r.1.status = .error → base.refusals < h.refusals)

/-- The table after an insertion holds the bindings of the map after it. -/
theorem mapStep_insert {w : α} {replace : Bool} {refused : Prop} {es es' : List (UInt32 × α)}
    {status : Status} {value : Option α} (hes : IsMapOf keyOf hash es m)
    (hdid : DidInsert keyOf refused ⟨hash (keyOf w), some (keyOf w), replace, some w⟩ (keyOf w) w es
      status value es') :
    ∃ m', MapStep keyOf m m' ⟨status, value⟩ (.insert w replace) ∧
      IsMapOf keyOf hash es' m' ∧ (status = .error → refused) := by
  rcases hdid with ⟨v, rest, hperm, hkey, rfl, hrep⟩ | ⟨hno, rfl, hadd⟩
  · obtain ⟨hm, hrest⟩ := (hes.perm hperm).uncons hkey
    rcases hrep with ⟨hr, rfl, hperm'⟩ | ⟨hr, rfl, hperm'⟩
    · refine ⟨m, ?_, hes.perm hperm'.symm, by simp⟩
      rw [MapStep, hm]
      dsimp only at hr ⊢
      rw [hr]
      exact ⟨rfl, rfl⟩
    · refine ⟨Function.update m (keyOf w) (some w), ?_, ?_, by simp⟩
      · rw [MapStep, hm]
        dsimp only at hr ⊢
        rw [hr]
        exact ⟨rfl, rfl⟩
      · have hadded := hrest.cons (Function.update_self (keyOf w) none m)
        rw [Function.update_idem] at hadded
        exact hadded.perm hperm'.symm
  · have hm : m (keyOf w) = none := hes.eq_none rfl rfl hno
    rcases hadd with ⟨rfl, hperm⟩ | ⟨rfl, href, hperm⟩
    · refine ⟨Function.update m (keyOf w) (some w), ?_, (hes.cons hm).perm hperm.symm, by simp⟩
      rw [MapStep, hm]
      exact Or.inl ⟨rfl, rfl⟩
    · refine ⟨m, ?_, hes.perm hperm.symm, fun _ => href⟩
      rw [MapStep, hm]
      exact Or.inr ⟨rfl, rfl⟩

/-- The table after a deletion holds the bindings of the map after it. -/
private theorem mapStep_delete {k : κ} {es es' : List (UInt32 × α)} {status : Status}
    {value : Option α} (hes : IsMapOf keyOf hash es m)
    (hdel : Deleted keyOf ⟨hash k, some k, false, none⟩ k es status value es') :
    ∃ m', MapStep keyOf m m' ⟨status, value⟩ (.delete k) ∧
      IsMapOf keyOf hash es' m' ∧ status ≠ .error := by
  rcases hdel with ⟨v, rfl, rfl, hkey, hperm⟩ | ⟨rfl, rfl, hperm, hno⟩
  · obtain ⟨hm, hes'⟩ := (hes.perm hperm).uncons hkey
    refine ⟨Function.update m k none, ?_, hes', by simp⟩
    rw [MapStep, hm]
    exact ⟨rfl, rfl⟩
  · refine ⟨m, ?_, hes.perm hperm, by simp⟩
    rw [MapStep, hes.eq_none rfl rfl hno]
    exact ⟨rfl, rfl⟩

/-- A search finds the binding of its key. -/
theorem find_spec (hrep : Represents keyOf hash shifts lh m) (k : κ) :
    find keyOf shifts lh ⟨hash k, some k, false, none⟩ =
      some (match m k with
        | some v => (.ok, some v)
        | none => (.declined, none)) := by
  rcases slotFind_spec (q := ⟨hash k, some k, false, none⟩) rfl hrep.ok with
    ⟨v, hfind, hmem, hkey⟩ | ⟨hfind, hno⟩
  · have hm : m k = some v := (hrep.isMapOf.bound_iff k v).mpr ⟨hmem, hkey⟩
    rw [Nat.shiftRight_zero] at hfind
    rw [find, hfind, hm]
    rfl
  · rw [Nat.shiftRight_zero] at hfind
    rw [find, hfind, hrep.isMapOf.eq_none rfl rfl hno]
    rfl

theorem step_spec (hshifts : ∀ s ∈ shifts, s < 61) (hrep : Represents keyOf hash shifts lh m)
    (hown : h.Owns base (lh.blocks shifts ++ frame)) (op : Op κ α) :
    Ends (step keyOf hash A shifts lh op) h (Simulates keyOf hash shifts base frame m op) := by
  cases op with
  | find k =>
    refine .lift_bind (find_spec hrep k) ?_
    cases hm : m k with
    | some v =>
      refine .pure ⟨m, ⟨rfl, ?_⟩, hrep, hown, by simp⟩
      rw [hm]
    | none =>
      refine .pure ⟨m, ⟨rfl, ?_⟩, hrep, hown, by simp⟩
      rw [hm]
  | insert w replace =>
    refine .bind (insert_spec rfl rfl hshifts hrep.ok hown) fun r h' hr => ?_
    obtain ⟨m', hstep, hmap, herr⟩ := mapStep_insert hrep.isMapOf hr.did
    exact .pure ⟨m', hstep, ⟨hr.ok, hmap⟩, hr.owns, herr⟩
  | delete k =>
    refine .bind (slotDelete_spec rfl hrep.ok hown) fun r h' hr => ?_
    obtain ⟨m', hstep, hmap, hst⟩ := mapStep_delete hrep.isMapOf hr.2.2
    exact .pure ⟨m', hstep, ⟨hr.2.1, hmap⟩, hr.1, fun herr => absurd herr hst⟩

/-- What a sequence of operations leaves. -/
theorem run_spec (hshifts : ∀ s ∈ shifts, s < 61) (hrep : Represents keyOf hash shifts lh m)
    (hown : h.Owns base (lh.blocks shifts ++ frame)) (ops : List (Op κ α)) :
    Ends (run keyOf hash A shifts lh ops) h fun r h' =>
      ∃ m', MapRun keyOf m ops r.1 m' ∧ Represents keyOf hash shifts r.2 m' ∧
        h'.Owns h (r.2.blocks shifts ++ frame) ∧ h.refusals + errors r.1 ≤ h'.refusals := by
  induction ops generalizing lh m h base with
  | nil => exact .pure ⟨m, .nil m, hrep, hown.rebase, Nat.le_refl _⟩
  | cons op ops ih =>
    refine .bind (step_spec hshifts hrep hown.rebase op)
      fun r h' ⟨m', hstep, hrep', hown', herr⟩ => ?_
    refine .bind (ih hrep' hown') fun s h'' ⟨m'', hrun, hrep'', hown'', herrs⟩ => ?_
    refine .pure ⟨m'', .cons hstep hrun, hrep'', hown''.of_suffix hown'.base_suffix, ?_⟩
    have hmono := History.refusals_mono hown'.base_suffix
    rw [errors, List.countP_cons, ← errors]
    split
    · rename_i hst
      have hlt := herr (by simpa using hst)
      omega
    · omega

end Refinement

theorem Layout.shift_lt (layout : Layout) : ∀ s ∈ layout.shift, s < 61 := by
  cases layout with
  | default => decide
  | largeSlab => decide
  | largeMemalign memalignShift =>
    intro s hs
    simp only [Layout.shift, List.mem_cons, List.not_mem_nil, or_false] at hs
    split at hs <;> omega

/-- What a sequence of operations on an empty table leaves. -/
theorem run_empty_spec (layout : Layout) (keyOf : α → κ) (hash : κ → UInt32)
    (A : Allocator α) (ops : List (Op κ α)) :
    ∃ replies lh h m, run keyOf hash A layout.shift .null ops [] = some ((replies, lh), h) ∧
      MapRun keyOf (fun _ => none) ops replies m ∧ errors replies ≤ h.refusals ∧
      Represents keyOf hash layout.shift lh m ∧ h.Owns [] (lh.blocks layout.shift) := by
  have hempty : Represents keyOf hash layout.shift (Slot.null : Slot α) fun _ => none :=
    ⟨trivial, .nil⟩
  obtain ⟨⟨replies, lh⟩, h, hrun, m, hmap, hrep, hown, herrors⟩ :=
    run_spec layout.shift_lt hempty (History.owns_nil (B := Block)) ops
  rw [List.append_nil] at hown
  exact ⟨replies, lh, h, m, hrun, hmap, (Nat.zero_add _).symm.trans_le herrors, hrep, hown⟩

/-- From an empty table, every sequence of operations is answered as a map answers it,
with an error only where an allocation was refused. -/
theorem lvlhsh_refines_map (layout : Layout) (keyOf : α → κ) (hash : κ → UInt32)
    (A : Allocator α) (ops : List (Op κ α)) :
    ∃ replies lh h m, run keyOf hash A layout.shift .null ops [] = some ((replies, lh), h) ∧
      MapRun keyOf (fun _ => none) ops replies m ∧ errors replies ≤ h.refusals ∧
      Represents keyOf hash layout.shift lh m := by
  obtain ⟨replies, lh, h, m, hrun, hmap, herrors, hrep, -⟩ := run_empty_spec layout keyOf hash A ops
  exact ⟨replies, lh, h, m, hrun, hmap, herrors, hrep⟩

/-! ## Memory -/

theorem length_flatMap_le {β γ : Type} {l : List ℕ} {f : ℕ → List β} {g : ℕ → List γ} {k : ℕ}
    (h : ∀ i, (f i).length ≤ (g i).length * k) :
    (l.flatMap f).length ≤ (l.flatMap g).length * k := by
  induction l with
  | nil => simp
  | cons i l ih =>
    rw [List.flatMap_cons, List.flatMap_cons, List.length_append, List.length_append, Nat.add_mul]
    exact Nat.add_le_add (h i) ih

/-- Every bucket has an entry. -/
theorem length_chain_le {chain : List (Bucket α)} (h : ∀ b ∈ chain, b.Ok) :
    chain.length ≤ (chainEntries chain).length := by
  induction chain with
  | nil => exact Nat.zero_le _
  | cons b chain ih =>
    have hb := h b List.mem_cons_self
    have hle := ih fun b' hb' => h b' (List.mem_cons_of_mem b hb')
    have hone : 0 < b.entries.length := by
      rw [hb.entries_eq, List.length_take]
      exact lt_min hb.pos (Nat.lt_of_lt_of_le hb.pos hb.le_occupied)
    rw [chainEntries_cons, List.length_append, List.length_cons]
    omega

/-- Below every pointer there is an entry, and for each entry there is at most one block on each
level. -/
theorem Slot.Ok.length_blocks_le {slot : Slot α} {shifts : List ℕ} {depth : ℕ}
    (h : slot.Ok shifts depth) :
    (slot.isNull = false → 0 < (slot.entries shifts).length) ∧
      (slot.blocks shifts).length ≤ (slot.entries shifts).length * (shifts.length + 1) := by
  induction slot generalizing shifts depth with
  | null => exact ⟨nofun, Nat.zero_le _⟩
  | bucket chain =>
    obtain ⟨hne, hok, -⟩ := h
    have hle := length_chain_le hok
    have hpos := List.length_pos_of_ne_nil hne
    refine ⟨fun _ => Nat.lt_of_lt_of_le hpos hle, ?_⟩
    rw [blocks, chainBlocks, List.length_map, entries]
    exact hle.trans (Nat.le_mul_of_pos_right _ (Nat.succ_pos _))
  | level word slots ih =>
    obtain ⟨hword, hused, hslots⟩ := h
    obtain ⟨s, shifts, rfl⟩ : ∃ s rest, shifts = s :: rest := by
      cases shifts with
      | nil => exact absurd hword.pos (Nat.lt_irrefl 0)
      | cons s rest => exact ⟨s, rest, rfl⟩
    obtain ⟨i, hi, hnull⟩ := List.countP_pos_iff.mp hused
    have hsome := (ih i (hslots i).1).1 (by simpa using hnull)
    have hpos : 0 < ((level word slots).entries (s :: shifts)).length := by
      obtain ⟨e, he⟩ := List.exists_mem_of_length_pos hsome
      exact List.length_pos_of_mem (List.mem_flatMap.mpr ⟨i, hi, he⟩)
    have hle := @length_flatMap_le _ _ (List.range (2 ^ s)) _ _ _ fun i => (ih i (hslots i).1).2
    refine ⟨fun _ => hpos, ?_⟩
    rw [entries] at hpos
    rw [blocks, entries, List.length_cons, List.length_cons, Nat.mul_succ]
    exact Nat.add_le_add hle hpos

/-- **The memory of a table.** In every run the blocks that are allocated and not freed are those of
the table, each one once, and for each key that is bound they are at most nine: a table from which
all keys have been deleted holds no memory. -/
theorem table_memory (layout : Layout) (keyOf : α → κ) (hash : κ → UInt32) (A : Allocator α)
    (ops : List (Op κ α)) :
    ∃ replies lh h m, run keyOf hash A layout.shift .null ops [] = some ((replies, lh), h) ∧
      MapRun keyOf (fun _ => none) ops replies m ∧ h.Legal ∧
      h.live.Perm (lh.blocks layout.shift) ∧
      ∃ keys : List κ, keys.Nodup ∧ (∀ k, k ∈ keys ↔ (m k).isSome) ∧
        h.live.length ≤ 9 * keys.length := by
  obtain ⟨replies, lh, h, m, hrun, hmap, -, ⟨hok, hentries⟩, hown⟩ :=
    run_empty_spec layout keyOf hash A ops
  refine ⟨replies, lh, h, m, hrun, hmap, hown.legal, hown.live_perm, _, hentries.nodup,
    fun k => ?_, ?_⟩
  · rw [List.mem_map, Option.isSome_iff_exists]
    constructor
    · rintro ⟨e, he, rfl⟩
      exact ⟨e.2, (hentries.bound_iff _ _).mpr ⟨hentries.hash_eq e he ▸ he, rfl⟩⟩
    · rintro ⟨v, hv⟩
      obtain ⟨hmem, hkey⟩ := (hentries.bound_iff k v).mp hv
      exact ⟨_, hmem, hkey⟩
  · have hlength : layout.shift.length = 8 := by cases layout <;> rfl
    have hle := hok.length_blocks_le.2
    rw [hlength, Nat.mul_comm] at hle
    rwa [hown.live_perm.length_eq, List.length_map]

end Njs.Lvlhsh
