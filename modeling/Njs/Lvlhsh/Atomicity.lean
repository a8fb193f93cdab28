import Njs.Lvlhsh.Enumeration

/-!
# Insertions without memory

When an allocation is refused, an insertion returns an error. The splits that were
completed before stay, so the entries may have other places than before; but they are
the same entries, and every block is either part of the table or given back.
-/

namespace Njs.Lvlhsh

open Lib

variable {κ α : Type} [DecidableEq κ] {keyOf : α → κ} {hash : κ → UInt32} {A : Allocator α}

/-- The operation needs no memory. -/
def Op.isInsert : Op κ α → Bool
  | insert _ _ => true
  | _ => false

/-- A map has only one answer to an operation that is no insertion. -/
theorem MapStep.unique {m m₁ m₂ : κ → Option α} {reply₁ reply₂ : Reply α} {op : Op κ α}
    (hop : op.isInsert = false) (h₁ : MapStep keyOf m m₁ reply₁ op)
    (h₂ : MapStep keyOf m m₂ reply₂ op) : m₁ = m₂ ∧ reply₁ = reply₂ := by
  cases op with
  | insert v replace => cases hop
  | find k =>
    obtain ⟨rfl, hr₁⟩ := h₁
    obtain ⟨rfl, hr₂⟩ := h₂
    cases hm : m₂ k with
    | some v =>
      rw [hm] at hr₁ hr₂
      exact ⟨rfl, hr₁.trans hr₂.symm⟩
    | none =>
      rw [hm] at hr₁ hr₂
      exact ⟨rfl, hr₁.trans hr₂.symm⟩
  | delete k =>
    cases hm : m k with
    | some v =>
      rw [MapStep, hm] at h₁ h₂
      exact ⟨h₁.2.trans h₂.2.symm, h₁.1.trans h₂.1.symm⟩
    | none =>
      rw [MapStep, hm] at h₁ h₂
      exact ⟨h₁.2.trans h₂.2.symm, h₁.1.trans h₂.1.symm⟩

/-- A map has only one sequence of answers to operations that are no insertions. -/
theorem MapRun.unique {m m₁ m₂ : κ → Option α} {replies₁ replies₂ : List (Reply α)}
    {ops : List (Op κ α)} (hops : ∀ op ∈ ops, op.isInsert = false)
    (h₁ : MapRun keyOf m ops replies₁ m₁) (h₂ : MapRun keyOf m ops replies₂ m₂) :
    replies₁ = replies₂ := by
  induction h₁ generalizing replies₂ with
  | nil m =>
    cases h₂
    rfl
  | cons hstep₁ _ ih =>
    obtain ⟨hop, hops'⟩ := List.forall_mem_cons.mp hops
    cases h₂ with
    | cons hstep₂ hrun₂ =>
      obtain ⟨rfl, rfl⟩ := hstep₁.unique hop hstep₂
      rw [ih hops' hrun₂]

section Error

variable {shifts : List ℕ} {lh lh' : Slot α} {h h' : History Block}

/-- Finding and deleting in two tables with the same bindings. -/
theorem run_same {m : κ → Option α} (hshifts : ∀ s ∈ shifts, s < 61)
    (hrep : Represents keyOf hash shifts lh m) (hrep' : Represents keyOf hash shifts lh' m)
    {base base' : History Block} (hown : h.Owns base (lh.blocks shifts))
    (hown' : h'.Owns base' (lh'.blocks shifts)) {ops : List (Op κ α)}
    (hops : ∀ op ∈ ops, op.isInsert = false) :
    ∃ replies s t s' t', run keyOf hash A shifts lh ops h = some ((replies, s), t) ∧
      run keyOf hash A shifts lh' ops h' = some ((replies, s'), t') := by
  rw [← List.append_nil (lh.blocks shifts)] at hown
  rw [← List.append_nil (lh'.blocks shifts)] at hown'
  obtain ⟨⟨replies, s⟩, t, hrun, m₁, hmap, -⟩ := run_spec hshifts hrep hown ops
  obtain ⟨⟨replies', s'⟩, t', hrun', m₂, hmap', -⟩ := run_spec hshifts hrep' hown' ops
  obtain rfl := hmap.unique hops hmap'
  exact ⟨replies, s, t, s', t', hrun, hrun'⟩

/-- An insertion that returns an error leaves the same bindings. -/
theorem step_error {m : κ → Option α} {base : History Block} {v : α} {replace : Bool}
    {reply : Reply α} (hshifts : ∀ s ∈ shifts, s < 61) (hrep : Represents keyOf hash shifts lh m)
    (hown : h.Owns base (lh.blocks shifts))
    (hstep : step keyOf hash A shifts lh (.insert v replace) h = some ((reply, lh'), h'))
    (herr : reply.status = .error) :
    Represents keyOf hash shifts lh' m ∧ h'.Owns h (lh'.blocks shifts) := by
  rw [← List.append_nil (lh.blocks shifts)] at hown
  obtain ⟨⟨r, s⟩, t, hstep', m', hmap, hrep', hown', -⟩ :=
    step_spec (A := A) hshifts hrep hown.rebase (.insert v replace)
  rw [hstep] at hstep'
  cases hstep'
  rw [List.append_nil] at hown'
  refine ⟨?_, hown'⟩
  have hsame : m' = m := by
    cases hm : m (keyOf v) with
    | none =>
      rw [MapStep, hm] at hmap
      rcases hmap with ⟨rfl, -⟩ | ⟨-, hsame⟩
      · cases herr
      · exact hsame
    | some old =>
      rw [MapStep, hm] at hmap
      dsimp only at hmap
      split at hmap
      · rw [hmap.1] at herr
        cases herr
      · exact hmap.2
  rwa [hsame] at hrep'

end Error

/-- The tables that can be iterated, by `enumerates_iff`. -/
def Layout.CanIterate (layout : Layout) (lh : Slot α) : Prop :=
  layout = .largeSlab → ¬lh.HasLevel layout.shift 6

/-- Every sequence of finding and deleting gets the same replies from two tables. -/
def SameReplies (keyOf : α → κ) (hash : κ → UInt32) (A : Allocator α) (shifts : List ℕ)
    (lh lh' : Slot α) (h h' : History Block) : Prop :=
  ∀ ops : List (Op κ α), (∀ op ∈ ops, op.isInsert = false) →
    ∃ replies s t s' t', run keyOf hash A shifts lh ops h = some ((replies, s), t) ∧
      run keyOf hash A shifts lh' ops h' = some ((replies, s'), t')

/-- The events between two histories legally turn the blocks of one table into those of
the other: whatever was granted is part of the new table or was released as often. -/
def Accounts (shifts : List ℕ) (lh lh' : Slot α) (h h' : History Block) : Prop :=
  ∃ events, h' = events ++ h ∧ h'.Legal ∧ (lh'.blocks shifts).Nodup ∧
    h'.live.Perm (lh'.blocks shifts) ∧
    ∀ b, (lh.blocks shifts).count b + events.count (.granted b) =
      (lh'.blocks shifts).count b + events.count (.released b)

theorem accounts_of_owns {shifts : List ℕ} {lh lh' : Slot α} {h h' base : History Block}
    (hown : h.Owns base (lh.blocks shifts)) (hown' : h'.Owns h (lh'.blocks shifts)) :
    Accounts shifts lh lh' h h' := by
  obtain ⟨events, rfl⟩ := hown'.base_suffix
  refine ⟨events, rfl, hown'.legal, hown'.live_perm.nodup_iff.mp hown'.legal.nodup_live,
    hown'.live_perm, fun b => ?_⟩
  rw [← hown.live_perm.count_eq, ← hown'.live_perm.count_eq]
  exact hown.legal.count_events hown'.legal b

/-- After an insertion into any reachable table that returns an error, finding and
deleting go on as before, iterating returns the same bindings, and all blocks are
accounted for. -/
theorem lvlhsh_insert_error (layout : Layout) (keyOf : α → κ) (hash : κ → UInt32)
    (A : Allocator α) {ops : List (Op κ α)} {replies : List (Reply α)} {lh : Slot α}
    {h : History Block}
    (hrun : run keyOf hash A layout.shift .null ops [] = some ((replies, lh), h))
    {v : α} {replace : Bool} {reply : Reply α} {lh' : Slot α} {h' : History Block}
    (hstep : step keyOf hash A layout.shift lh (.insert v replace) h = some ((reply, lh'), h'))
    (herr : reply.status = .error) :
    SameReplies keyOf hash A layout.shift lh lh' h h' ∧
      (∃ m, (layout.CanIterate lh → Enumerates keyOf hash layout.shift lh m) ∧
        (layout.CanIterate lh' → Enumerates keyOf hash layout.shift lh' m)) ∧
      Accounts layout.shift lh lh' h h' := by
  obtain ⟨replies', s, t, m, hrun', -, -, hrep, hown⟩ := run_empty_spec layout keyOf hash A ops
  rw [hrun] at hrun'
  cases hrun'
  obtain ⟨hrep', hown'⟩ := step_error layout.shift_lt hrep hown hstep herr
  refine ⟨fun ops hops => run_same layout.shift_lt hrep hrep' hown hown' hops, ⟨m, ?_, ?_⟩,
    accounts_of_owns hown hown'⟩
  · exact (enumerates_iff layout hrep.ok hrep.isMapOf).mpr
  · exact (enumerates_iff layout hrep'.ok hrep'.isMapOf).mpr

/-! ## A split that stays -/

/-- Ten keys with descending hashes fill one bucket. -/
def tenKeys : List (Op ℕ ℕ) := (List.range 10).map fun v => .insert v false

/-- The hash of a key: the order of the slots is not the order of the keys. -/
def descending (k : ℕ) : UInt32 := (10 - k).toUInt32

/-- The eleventh insertion is refused its new bucket, after the first bucket was split. -/
private theorem eleventh_insert_refused :
    ∃ r ∈ run id descending (bump 13) Layout.default.shift .null tenKeys [],
      ∃ r' ∈ step id descending (bump 13) Layout.default.shift r.1.2 (.insert 10 false) r.2,
        r'.1.1.status = .error ∧
          eachAll 16 Layout.default.shift r.1.2 11 Each.init ≠
            eachAll 16 Layout.default.shift r'.1.2 11 Each.init := by decide +kernel

/-- Iterating gives the ten keys in another order after the failed insertion. -/
theorem each_reordered_by_error :
    ∃ replies lh h reply lh' h',
      run id descending (bump 13) Layout.default.shift .null tenKeys [] =
        some ((replies, lh), h) ∧
      step id descending (bump 13) Layout.default.shift lh (.insert 10 false) h =
        some ((reply, lh'), h') ∧
      reply.status = .error ∧
      eachAll 16 Layout.default.shift lh 11 Each.init ≠
        eachAll 16 Layout.default.shift lh' 11 Each.init := by
  obtain ⟨⟨⟨replies, lh⟩, h⟩, hrun, ⟨⟨reply, lh'⟩, h'⟩, hstep, herr, hne⟩ := eleventh_insert_refused
  exact ⟨replies, lh, h, reply, lh', h', hrun, hstep, herr, hne⟩

/-- The same insertion keeps the bindings. -/
theorem lvlhsh_insert_error_eleventh :
    ∃ replies lh h reply lh' h',
      run id descending (bump 13) Layout.default.shift .null tenKeys [] =
        some ((replies, lh), h) ∧
      step id descending (bump 13) Layout.default.shift lh (.insert 10 false) h =
        some ((reply, lh'), h') ∧
      SameReplies id descending (bump 13) Layout.default.shift lh lh' h h' ∧
      (∃ m, (Layout.default.CanIterate lh → Enumerates id descending Layout.default.shift lh m) ∧
        (Layout.default.CanIterate lh' → Enumerates id descending Layout.default.shift lh' m)) ∧
      Accounts Layout.default.shift lh lh' h h' := by
  obtain ⟨⟨⟨replies, lh⟩, h⟩, hrun, ⟨⟨reply, lh'⟩, h'⟩, hstep, herr, -⟩ := eleventh_insert_refused
  exact ⟨replies, lh, h, reply, lh', h', hrun, hstep,
    lvlhsh_insert_error Layout.default id descending (bump 13) hrun hstep herr⟩

end Njs.Lvlhsh
