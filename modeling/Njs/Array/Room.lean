import Njs.Array.Storage

/-!
# Room for elements

`Holds` ties an array to the list of its elements, with the inequality that relates
`data`, `start`, `length` and `size`. An expansion keeps it, and makes the room that is
asked for, or throws a memory error and changes nothing.
-/

namespace Njs.Array

variable {α : Type} {pool : Pool α} {s s' s'' : State α} {a a' : ArrayObject}
  {l l' : List (Option α)}

/-- The header of an array fits its block. -/
structure Fits (s : State α) (a : ArrayObject) (cells : List (Option α)) : Prop where
  live : s.heap a.data = some cells
  size : cells.length = a.size
  room : a.start + a.length ≤ a.size
  bound : a.size ≤ maxLength

/-- The array's block is live, its fields are consistent, and its elements are those of
the list, where `none` stands for a hole. -/
def Holds (s : State α) (a : ArrayObject) (l : List (Option α)) : Prop :=
  ∃ cells, Fits s a cells ∧ Lib.window cells a.start a.length = l

/-- No block has the number of a request to come. -/
def State.Fresh (s : State α) : Prop := ∀ b, s.requests ≤ b → s.heap b = none

/-- The blocks of the first state, those listed apart, are as they were, and the array's
header and its named properties too. -/
structure Touches (bs : List ℕ) (s s' : State α) : Prop where
  array : s'.array = s.array
  hash : s'.hash = s.hash
  requests : s.requests ≤ s'.requests
  others : ∀ b < s.requests, b ∉ bs → s'.heap b = s.heap b
  fresh : s'.Fresh

theorem Fits.data_lt {cells : List (Option α)} (h : Fits s a cells) (hfresh : s.Fresh) :
    a.data < s.requests := by
  by_contra hge
  have hnone := hfresh a.data (by omega)
  rw [h.live] at hnone
  cases hnone

theorem Holds.data_lt (h : Holds s a l) (hfresh : s.Fresh) : a.data < s.requests := by
  obtain ⟨cells, hfits, -⟩ := h
  exact hfits.data_lt hfresh

theorem Holds.length_eq (h : Holds s a l) : l.length = a.length := by
  obtain ⟨cells, hfits, rfl⟩ := h
  exact Lib.length_window (by rw [hfits.size]; exact hfits.room)

theorem Holds.room (h : Holds s a l) : a.start + l.length ≤ a.size := by
  rw [h.length_eq]
  obtain ⟨cells, hfits, -⟩ := h
  exact hfits.room

theorem Holds.size_le (h : Holds s a l) : a.size ≤ maxLength := by
  obtain ⟨cells, hfits, -⟩ := h
  exact hfits.bound

/-- What an array holds depends on its block only. -/
theorem Holds.of_heap_eq (h : Holds s a l) (heq : s'.heap a.data = s.heap a.data) :
    Holds s' a l := by
  obtain ⟨cells, hfits, hl⟩ := h
  exact ⟨cells, ⟨heq.trans hfits.live, hfits.size, hfits.room, hfits.bound⟩, hl⟩

theorem Touches.refl (bs : List ℕ) (hfresh : s.Fresh) : Touches bs s s :=
  ⟨rfl, rfl, le_rfl, fun _ _ _ => rfl, hfresh⟩

/-- Blocks made by the first of two steps do not count for both together. -/
theorem Touches.trans {bs cs : List ℕ} (h : Touches bs s s') (h' : Touches cs s' s'')
    (hcs : ∀ c ∈ cs, c ∈ bs ∨ s.requests ≤ c) : Touches bs s s'' where
  array := h'.array.trans h.array
  hash := h'.hash.trans h.hash
  requests := Nat.le_trans h.requests h'.requests
  others := by
    intro b hb hbs
    have hcs' : b ∉ cs := by
      intro hmem
      rcases hcs b hmem with hin | hge
      · exact hbs hin
      · omega
    exact (h'.others b (Nat.lt_of_lt_of_le hb h.requests) hcs').trans (h.others b hb hbs)
  fresh := h'.fresh

theorem Touches.mono {bs cs : List ℕ} (h : Touches bs s s') (hsub : ∀ b ∈ bs, b ∈ cs) :
    Touches cs s s' :=
  ⟨h.array, h.hash, h.requests, fun b hb hcs => h.others b hb fun hbs => hcs (hsub b hbs), h.fresh⟩

theorem Touches.setBlock {data : ℕ} (cells : List (Option α)) (hfresh : s.Fresh)
    (hdata : data < s.requests) : Touches [data] s (s.setBlock data cells) where
  array := rfl
  hash := rfl
  requests := le_rfl
  others := fun b _ hb => State.setBlock_heap_of_ne fun h => hb (List.mem_singleton.mpr h)
  fresh := by
    intro b hb
    change s.requests ≤ b at hb
    rw [State.setBlock_heap_of_ne (by omega)]
    exact hfresh b hb

/-- An array in a block that a step does not touch holds what it held. -/
theorem Holds.touches {bs : List ℕ} (h : Holds s a l) (ht : Touches bs s s') (hfresh : s.Fresh)
    (hbs : a.data ∉ bs) : Holds s' a l :=
  h.of_heap_eq (ht.others a.data (h.data_lt hfresh) hbs)

/-! ## Requests -/

/-- A memory error leaves the memory as it was. The pool has refused a request, or the
array would be too long. -/
def Refused (pool : Pool α) (tooLong : Prop) (s : State α) (e : Error) (s' : State α) : Prop :=
  e = .engine .memoryError ∧ (∃ n, s' = { s with requests := s.requests + n }) ∧
    (tooLong ∨ ∃ r, pool.grants r = false)

theorem Refused.touches {e : Error} {tooLong : Prop} (h : Refused pool tooLong s e s')
    (hfresh : s.Fresh) : Touches [] s s' := by
  obtain ⟨-, ⟨n, rfl⟩, -⟩ := h
  exact ⟨rfl, rfl, by simp, fun _ _ _ => rfl, fun b hb => hfresh b (by
    simp only at hb
    omega)⟩

theorem mpAlloc_spec (s : State α) :
    Lib.Outcome (mpAlloc pool) s
      (fun b s' => b = s.requests ∧ s' = { s with requests := s.requests + 1 })
      (Refused pool False s) := by
  have hrun : (mpAlloc pool).run s =
      (if pool.grants s.requests then (pure s.requests : Vm α ℕ)
        else njsThrow .memoryError).run { s with requests := s.requests + 1 } := rfl
  unfold Lib.Outcome
  unfold Lib.Ends
  rw [hrun]
  by_cases hgrant : pool.grants s.requests
  · rw [if_pos hgrant]
    exact ⟨.ok s.requests, _, rfl, rfl, rfl⟩
  · rw [if_neg hgrant]
    exact ⟨.error _, _, rfl, rfl, ⟨1, rfl⟩, Or.inr ⟨_, by simpa using hgrant⟩⟩

/-- The state with a new block of so many stale values. -/
def State.grant (s : State α) (pool : Pool α) (n : ℕ) : State α :=
  { s with
    heap := Function.update s.heap s.requests
      (some ((List.range n).map (pool.garbage s.requests)))
    requests := s.requests + 1 }

theorem mpAlign_spec (s : State α) (n : ℕ) :
    Lib.Outcome (mpAlign pool n) s (fun b s' => b = s.requests ∧ s' = s.grant pool n)
      (Refused pool False s) := by
  refine Lib.Outcome.bind (mpAlloc_spec s) ?_
  rintro b s' ⟨rfl, rfl⟩
  exact .of_ok rfl ⟨rfl, rfl⟩

theorem State.grant_touches (hfresh : s.Fresh) (n : ℕ) : Touches [] s (s.grant pool n) where
  array := rfl
  hash := rfl
  requests := Nat.le_succ _
  others := fun b hb _ => Function.update_of_ne (by omega) _ _
  fresh := by
    intro b hb
    change s.requests + 1 ≤ b at hb
    exact (Function.update_of_ne (by omega) _ _).trans (hfresh b (by omega))

theorem State.grant_heap (s : State α) (pool : Pool α) (n : ℕ) :
    (s.grant pool n).heap s.requests =
      some ((List.range n).map (pool.garbage s.requests)) :=
  Function.update_self ..

/-- What `njs_array_alloc` throws. -/
def AllocError (pool : Pool α) (length spare : ℕ) (s : State α) (e : Error) (s' : State α) :
    Prop :=
  (2 ^ 32 - 1 < length ∧ e = .engine (.rangeError "Invalid array length") ∧ s' = s) ∨
    (length ≤ 2 ^ 32 - 1 ∧ Refused pool (maxLength < length + spare) s e s')

/-- `njs_array_alloc` returns an array of values that are not set, in a block of its own,
or throws. -/
theorem arrayAlloc_spec (hfresh : s.Fresh) (length spare : ℕ) :
    Lib.Outcome (arrayAlloc pool length spare) s
      (fun a s' => a.length = length ∧ a.start = 0 ∧ a.size = length + spare ∧
        s.requests ≤ a.data ∧ length + spare ≤ maxLength ∧ (∃ l, Holds s' a l) ∧ Touches [] s s')
      (AllocError pool length spare s) := by
  unfold arrayAlloc
  split_ifs with hlength hsize
  · exact .throw (Or.inl ⟨by omega, rfl, rfl⟩)
  · exact .throw (Or.inr ⟨by omega, rfl, ⟨0, rfl⟩, Or.inl (by omega)⟩)
  · refine Lib.Outcome.bind ((mpAlloc_spec s).mono (fun _ _ h => h) fun e s' h =>
      Or.inr ⟨by omega, h.1, h.2.1, Or.inr (h.2.2.resolve_left id)⟩) ?_
    rintro _ s₁ ⟨rfl, hs₁⟩
    have ht₁ : Touches [] s s₁ := by
      subst hs₁
      exact ⟨rfl, rfl, Nat.le_succ _, fun _ _ _ => rfl, fun b hb => hfresh b (by
        simp only at hb
        omega)⟩
    refine Lib.Outcome.bind ((mpAlign_spec s₁ (length + spare)).mono (fun _ _ h => h) ?_) ?_
    · rintro e s' ⟨rfl, ⟨n, rfl⟩, hgrants⟩
      subst hs₁
      exact Or.inr ⟨by omega, rfl, ⟨n + 1, by simp [Nat.add_comm, Nat.add_left_comm]⟩,
        Or.inr (hgrants.resolve_left id)⟩
    · rintro _ s₂ ⟨rfl, rfl⟩
      refine .pure ⟨rfl, rfl, rfl, ht₁.requests, by omega,
        ⟨_, _, ⟨s₁.grant_heap pool _, ?_, ?_, ?_⟩, rfl⟩,
        ht₁.trans (State.grant_touches ht₁.fresh _) (by simp)⟩
      · simp
      · simp only
        omega
      · simp only
        omega

/-! ## Expansion -/

theorem ArrayObject.hasRoom_iff {p q : ℕ} (hroom : a.start + a.length ≤ a.size)
    (hbound : a.size ≤ maxLength) :
    a.hasRoom p q = true ↔ p ≤ a.start ∧ a.start + a.length + q ≤ a.size := by
  have hmax : maxLength < 2 ^ 32 := by decide
  have hfree : unsigned 32 ((a.size : ℤ) - a.length - a.start) = a.size - a.length - a.start := by
    rw [unsigned_of_nonneg (by omega) (by omega)]
    omega
  simp only [hasRoom, hfree, Bool.and_eq_true, decide_eq_true_eq]
  omega

theorem le_expandedSize (p n q : ℕ) : p + n + q ≤ expandedSize p n q := by
  unfold expandedSize
  simp only
  split_ifs <;> omega

/-- The elements move to the new block. -/
theorem moveElements_spec {p n : ℕ} (h : Holds s a l) (hfresh : s.Fresh)
    (hn : p + a.length ≤ n) (hmax : n ≤ maxLength) :
    Lib.Outcome (moveElements a s.requests p n) (s.grant pool n)
      (fun a' s' => Holds s' a' l ∧ Touches [a.data] s s' ∧ a'.data = s.requests ∧
        a'.start = p ∧ a'.size = n ∧ a'.length = a.length)
      (fun _ _ => False) := by
  have hdata := h.data_lt hfresh
  obtain ⟨cells, hfits, hl⟩ := h
  set target := (List.range n).map (pool.garbage s.requests) with htarget
  have htlen : target.length = n := by simp [htarget]
  have hold : (s.grant pool n).heap a.data = some cells :=
    (Function.update_of_ne (by omega) _ _).trans hfits.live
  have hnew : (s.grant pool n).heap s.requests = some target := s.grant_heap pool n
  have hwin : l.length = a.length := by
    rw [← hl]
    exact Lib.length_window (by rw [hfits.size]; exact hfits.room)
  set moved := (s.grant pool n).setBlock s.requests (Lib.overwrite target p l) with hmoved
  have hmove : (copyElements a s.requests p).run (s.grant pool n) = some (.ok (), moved) := by
    unfold copyElements
    by_cases hzero : a.length = 0
    · have hnil : l = [] := List.length_eq_zero_iff.mp (hwin.trans hzero)
      rw [if_neg (by simpa using hzero), hmoved, hnil, Lib.overwrite_nil, State.setBlock_self hnew]
      rfl
    · rw [if_pos hzero, memmove_run hold (by rw [hfits.size]; exact hfits.room) hnew (by omega), hl]
  have hmlive : moved.heap a.data = some cells := (State.setBlock_heap_of_ne (by omega)).trans hold
  have htouch : Touches [] s moved :=
    (State.grant_touches hfresh n).trans
      (Touches.setBlock _ (State.grant_touches hfresh n).fresh (Nat.lt_succ_self _)) (by simp)
  set freed : State α := { moved with heap := Function.update moved.heap a.data none } with hfreed
  have hfree : (mpFree a.data).run moved = some (.ok (), freed) := mpFree_run hmlive
  have hfinal : freed.heap s.requests = some (Lib.overwrite target p l) :=
    (Function.update_of_ne (by omega) _ _).trans (State.setBlock_heap_self ..)
  refine .of_ok (b := ⟨s.requests, p, n, a.length⟩) ?_ ⟨⟨_, ⟨hfinal, ?_, hn, hmax⟩, ?_⟩, ?_, rfl,
    rfl, rfl, rfl⟩
  · unfold moveElements
    rw [Lib.run_bind_ok hmove, Lib.run_bind_ok hfree]
    rfl
  · rw [Lib.length_overwrite (by omega), htlen]
  · rw [← hwin]
    exact Lib.window_overwrite_self (by omega)
  · refine ⟨rfl, rfl, htouch.requests, fun b hb hbs => ?_, fun b hb => ?_⟩
    · rw [List.mem_singleton] at hbs
      exact (Function.update_of_ne hbs _ _).trans (htouch.others b hb (by simp))
    · have hge : moved.requests ≤ b := hb
      have hlt : s.requests ≤ moved.requests := htouch.requests
      exact (Function.update_of_ne (by omega) _ _).trans (htouch.fresh b hge)

/-- `njs_array_expand` returns a header with the room that was asked for and the same
elements, or throws and leaves the memory as it was. -/
theorem arrayExpand_spec {p q : ℕ} (h : Holds s a l) (hfresh : s.Fresh) :
    Lib.Outcome (arrayExpand pool a p q) s
      (fun a' s' => Holds s' a' l ∧ Touches [a.data] s s' ∧
        (a'.data = a.data ∨ s.requests ≤ a'.data) ∧ a'.length = a.length ∧
        p ≤ a'.start ∧ a'.start + a'.length + q ≤ a'.size)
      (Refused pool (a.hasRoom p q = false ∧ maxLength < expandedSize p a.length q) s) := by
  have hlength := h.length_eq
  have hroom := h.room
  have hbound := h.size_le
  unfold arrayExpand
  split_ifs with hhas hmax
  · rw [ArrayObject.hasRoom_iff (by omega) hbound] at hhas
    exact .pure ⟨h, .refl _ hfresh, Or.inl rfl, rfl, hhas.1, hhas.2⟩
  · exact .throw ⟨rfl, ⟨0, rfl⟩, Or.inl ⟨by simpa using hhas, by omega⟩⟩
  · have hle := le_expandedSize p a.length q
    refine Lib.Outcome.bind ((mpAlign_spec s _).mono (fun _ _ h => h) fun e s' h =>
      ⟨h.1, h.2.1, Or.inr (h.2.2.resolve_left id)⟩) ?_
    rintro _ s' ⟨rfl, rfl⟩
    refine (moveElements_spec h hfresh (by omega) (by omega)).mono ?_ fun _ _ h => h.elim
    rintro a' s' ⟨hholds, htouch, hdata, hstart, hsize, hlen⟩
    exact ⟨hholds, htouch, Or.inr (by omega), hlen, by omega, by omega⟩

/-- An expansion beyond `NJS_ARRAY_MAX_LENGTH` throws. -/
theorem arrayExpand_run_error {p q : ℕ} (hroom : a.hasRoom p q = false)
    (hsize : maxLength < expandedSize p a.length q) :
    (arrayExpand pool a p q).run s = some (.error (.engine .memoryError), s) := by
  unfold arrayExpand
  rw [if_neg (by simp [hroom]), if_pos hsize]
  rfl

end Njs.Array
