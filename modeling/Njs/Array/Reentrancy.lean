import Mathlib.Tactic.Ring
import Njs.Array.Conversions

/-!
# Which conversions are safe

A method is safe if none of its accesses falls outside the block that the array has after
the conversions, and if the array's header fits its block afterwards. The conditions here
say exactly when that is so, whatever the allocator does.
-/

namespace Njs.Array

variable {α β γ : Type} {pool : Pool α} {s s' : State α} {cells : List (Option α)}

/-- No access of the method is outside an allocated block, and after it the array's header
fits its block. -/
def Safe (x : Vm α β) (s : State α) : Prop :=
  Lib.Outcome x s (fun _ s' => s'.Ok) (fun _ s' => s'.Ok)

theorem Safe.ne_none {x : Vm α β} (h : Safe x s) : x.run s ≠ none := by
  obtain ⟨r, s', hrun, -⟩ := h
  rw [hrun]
  exact Option.some_ne_none _

/-- What follows a safe part has to be safe in every state that it may leave. -/
theorem safe_bind_iff {x : Vm α β} {f : β → Vm α γ} {P : β → State α → Prop}
    (hx : Lib.Outcome x s P (fun _ s' => s'.Ok)) :
    Safe (x >>= f) s ↔ ∀ b s', x.run s = some (.ok b, s') → Safe (f b) s' := by
  rcases hx.cases with ⟨b, s', hrun, -⟩ | ⟨e, s', hrun, hok⟩
  · constructor
    · intro h c t hc
      rw [hrun] at hc
      obtain ⟨rfl, rfl⟩ := Prod.mk.inj (Option.some.inj hc) |>.imp_left Except.ok.inj
      unfold Safe Lib.Outcome Lib.Ends at h
      rwa [Lib.run_bind_ok hrun] at h
    · exact fun h => .bind_ok hrun (h b s' hrun)
  · constructor
    · intro _ c t hc
      rw [hrun] at hc
      cases hc
    · exact fun _ => .of_error (Lib.run_bind_error hrun) hok

theorem safe_bind_ok_iff {x : Vm α β} {f : β → Vm α γ} {b : β}
    (hx : x.run s = some (.ok b, s')) : Safe (x >>= f) s ↔ Safe (f b) s' := by
  unfold Safe Lib.Outcome Lib.Ends
  rw [Lib.run_bind_ok hx]

theorem not_safe_of_none {x : Vm α β} (hx : x.run s = none) : ¬Safe x s :=
  fun h => h.ne_none hx

theorem State.Ok.fits (h : s.Ok) : ∃ cells, Fits s s.array cells := by
  obtain ⟨-, l, cells, hfits, -⟩ := h
  exact ⟨cells, hfits⟩

theorem Fits.ok (h : Fits s s.array cells) (hfresh : s.Fresh) : s.Ok := ⟨hfresh, _, cells, h, rfl⟩

theorem State.Ok.length_le (h : s.Ok) : s.array.length ≤ maxLength := by
  obtain ⟨cells, hfits⟩ := h.fits
  have hroom := hfits.room
  have hbound := hfits.bound
  omega

/-- Any values may be written into the array's block. -/
theorem Fits.setBlock {cells' : List (Option α)} (h : Fits s s.array cells)
    (hcells : cells'.length = cells.length) :
    Fits (s.setBlock s.array.data cells') s.array cells' :=
  ⟨State.setBlock_heap_self .., hcells.trans h.size, h.room, h.bound⟩

/-! ## The ranges that the arguments select -/

/-- A conversion leaves an array whose header fits its block. -/
theorem valueToInteger_spec (hok : s.Ok) (arg : Argument α) :
    Lib.Outcome (valueToInteger arg) s (fun _ s' => s'.Ok) (fun _ s' => s'.Ok) := by
  rcases arg with - | n | valueOf
  · exact .pure hok
  · exact .pure hok
  · have hkeeps := valueOf.keeps s hok
    have hcall : Lib.Outcome valueOf.call s (fun _ s' => s'.Ok) (fun _ s' => s'.Ok) := by
      rcases hrun : valueOf.run s with ⟨e | n, s'⟩
      · rw [hrun] at hkeeps
        exact .of_error (congrArg some hrun) hkeeps
      · rw [hrun] at hkeeps
        exact .of_ok (congrArg some hrun) hkeeps
    exact .bind hcall fun n s' h => .pure h

theorem convertEnd_spec (hok : s.Ok) (stop : Argument α) (length : ℤ) :
    Lib.Outcome (convertEnd stop length) s (fun _ s' => s'.Ok) (fun _ s' => s'.Ok) := by
  rcases stop with - | n | valueOf
  · exact .pure hok
  · exact valueToInteger_spec hok (.number n)
  · exact valueToInteger_spec hok (.object valueOf)

/-- `splice` selects a part of the array as it was when its length was read. -/
theorem spliceRange_spec (hok : s.Ok) (args : SpliceArguments α) :
    Lib.Outcome (spliceRange args) s
      (fun r s' => s'.Ok ∧ ∃ st d : ℕ, r = ((st : ℤ), (d : ℤ)) ∧ st + d ≤ s.array.length)
      (fun _ s' => s'.Ok) := by
  have hstart : ∀ n : ℤ, 0 ≤ spliceStart n s.array.length ∧
      spliceStart n s.array.length ≤ s.array.length := by
    intro n
    unfold spliceStart
    split_ifs <;> omega
  rcases args with - | start | ⟨start, deleteCount, items⟩
  · exact .pure ⟨hok, 0, 0, rfl, Nat.zero_le _⟩
  · refine .bind_ok (getArray_run s) (.bind (valueToInteger_spec hok start) fun n s' hok' =>
      .pure ⟨hok', (spliceStart n s.array.length).toNat,
        (s.array.length - spliceStart n s.array.length).toNat, ?_, ?_⟩)
    · have h := hstart n
      rw [Int.toNat_of_nonneg h.1, Int.toNat_of_nonneg (by omega)]
    · have h := hstart n
      omega
  · refine .bind_ok (getArray_run s) (.bind (valueToInteger_spec hok start) fun n s' hok' =>
      .bind (valueToInteger_spec hok' deleteCount) fun m s'' hok'' =>
      .pure ⟨hok'', (spliceStart n s.array.length).toNat,
        (spliceDelete m (s.array.length - spliceStart n s.array.length)).toNat, ?_, ?_⟩)
    · have h := hstart n
      have hdelete : 0 ≤ spliceDelete m (s.array.length - spliceStart n s.array.length) := by
        unfold spliceDelete
        split_ifs <;> omega
      rw [Int.toNat_of_nonneg h.1, Int.toNat_of_nonneg hdelete]
    · have h := hstart n
      unfold spliceDelete
      split_ifs <;> omega

/-- `slice` selects a part of the array as it was when its length was read. -/
theorem sliceRange_spec (hok : s.Ok) (start stop : Argument α) :
    Lib.Outcome (sliceRange start stop) s
      (fun r s' => s'.Ok ∧ ∃ st n : ℕ, r = ((st : ℤ), (n : ℤ)) ∧ st + n ≤ s.array.length)
      (fun _ s' => s'.Ok) := by
  refine .bind_ok (getArray_run s) (.bind (valueToInteger_spec hok start) fun n s' hok' => ?_)
  have hstart : 0 ≤ sliceStart n s.array.length := by
    unfold sliceStart
    split_ifs <;> omega
  by_cases hle : (s.array.length : ℤ) ≤ sliceStart n s.array.length
  · rw [if_pos hle]
    exact .pure ⟨hok', 0, 0, rfl, Nat.zero_le _⟩
  · rw [if_neg hle]
    refine .bind (convertEnd_spec hok' stop s.array.length) fun m s'' hok'' => .pure ⟨hok'', ?_⟩
    obtain ⟨st, hst⟩ := Int.eq_ofNat_of_zero_le hstart
    rw [hst] at hle ⊢
    unfold sliceSpan
    simp only
    split_ifs with h1 h2 h3 h4 h5
    · exact ⟨0, 0, rfl, by omega⟩
    · exact ⟨st, (m + s.array.length - st).toNat, by rw [Int.toNat_of_nonneg (by omega)],
        by omega⟩
    · exact ⟨st, (s.array.length - st : ℤ).toNat, by rw [Int.toNat_of_nonneg (by omega)],
        by omega⟩
    · exact ⟨0, 0, rfl, by omega⟩
    · exact ⟨st, (m - st).toNat, by rw [Int.toNat_of_nonneg (by omega)], by omega⟩
    · exact ⟨st, (s.array.length - st : ℤ).toNat, by rw [Int.toNat_of_nonneg (by omega)],
        by omega⟩

theorem clampIndex_bounds (n : ℤ) (length : ℕ) :
    0 ≤ clampIndex n length ∧ clampIndex n length ≤ length := by
  unfold clampIndex
  split_ifs <;> omega

/-- `fill` selects indices of the array as it was when its length was read. -/
theorem fillRange_spec (hok : s.Ok) (start stop : Argument α) :
    Lib.Outcome (fillRange start stop) s
      (fun r s' => s'.Ok ∧ ∃ i j : ℕ, r = ((i : ℤ), (j : ℤ)) ∧ i ≤ s.array.length ∧
        j ≤ s.array.length)
      (fun _ s' => s'.Ok) := by
  refine .bind_ok (getArray_run s) (.bind (valueToInteger_spec hok start) fun n s' hok' =>
    .bind (convertEnd_spec hok' stop s.array.length) fun m s'' hok'' => .pure ⟨hok'',
      (clampIndex n s.array.length).toNat, (clampIndex m s.array.length).toNat, ?_, ?_, ?_⟩)
  · rw [Int.toNat_of_nonneg (clampIndex_bounds n _).1,
      Int.toNat_of_nonneg (clampIndex_bounds m _).1]
  · have h := clampIndex_bounds n s.array.length
    omega
  · have h := clampIndex_bounds m s.array.length
    omega

/-- `copyWithin` selects two parts of the array as it was when its length was read. -/
theorem copyWithinRange_spec (hok : s.Ok) (dst src stop : Argument α) :
    Lib.Outcome (copyWithinRange dst src stop) s
      (fun r s' => s'.Ok ∧ ∃ i j : ℕ, r.1 = i ∧ r.2.1 = j ∧ i + r.2.2 ≤ s.array.length ∧
        j + r.2.2 ≤ s.array.length ∧ i ≤ s.array.length ∧ j ≤ s.array.length)
      (fun _ s' => s'.Ok) := by
  refine .bind_ok (getArray_run s) (.bind (valueToInteger_spec hok dst) fun n s₁ hok₁ =>
    .bind (valueToInteger_spec hok₁ src) fun m s₂ hok₂ =>
    .bind (convertEnd_spec hok₂ stop s.array.length) fun k s₃ hok₃ => .pure ⟨hok₃,
      (clampIndex n s.array.length).toNat, (clampIndex m s.array.length).toNat, ?_⟩)
  have hn := clampIndex_bounds n s.array.length
  have hm := clampIndex_bounds m s.array.length
  have hk := clampIndex_bounds k s.array.length
  simp only
  omega

/-! ## `slice` -/

/-- The part to be copied lies in the block, or the copy would be too long. -/
def SliceFits (a : ArrayObject) (start n : ℕ) : Prop :=
  n = 0 ∨ maxLength < n + spareLength ∨ a.start + start + n ≤ a.size

/-- A new array in a block of its own, made from an array whose header fits. -/
theorem arrayAlloc_fits (hok : s.Ok) (length spare : ℕ) (hlength : length ≤ maxLength) :
    Lib.Outcome (arrayAlloc pool length spare) s
      (fun a s' => ∃ cells dcells, Fits s' s'.array cells ∧ Fits s' a dcells ∧
        s'.array = s.array ∧ a.data ≠ s.array.data ∧ a.start = 0 ∧ a.length = length ∧
        a.size = length + spare ∧ s'.Fresh)
      (fun _ s' => s'.Ok ∧ (maxLength < length + spare ∨ ∃ r, pool.grants r = false)) := by
  obtain ⟨cells, hfits⟩ := hok.fits
  have hmax : maxLength < 2 ^ 28 := by decide
  have hlt := hfits.data_lt hok.1
  refine (arrayAlloc_spec hok.1 length spare).mono ?_ ?_
  · rintro a s' ⟨hlen, hstart, hsize, hnew, -, ⟨l, dcells, hdfits, -⟩, htouches⟩
    have hun : Unchanged s s' := htouches.unchanged hlt (by simp)
    exact ⟨cells, dcells, by rw [hun.array]; exact ⟨hun.block.trans hfits.live, hfits.size,
      hfits.room, hfits.bound⟩, hdfits, hun.array, by omega, hstart, hlen, hsize, htouches.fresh⟩
  · rintro e s' (⟨hlong, -⟩ | ⟨-, hrefused⟩)
    · omega
    · have hun := (hrefused.touches hok.1).unchanged hlt (by simp)
      exact ⟨⟨hun.changes.fresh, _, hun.holds hok.2.choose_spec⟩, hrefused.2.2⟩

theorem sliceCopy_safe_iff (hok : s.Ok) {st n : ℕ} (hst : st ≤ maxLength) (hn : n ≤ maxLength) :
    (∀ pool, Safe (sliceCopy pool st n) s) ↔ SliceFits s.array st n := by
  have hmax : maxLength < 2 ^ 28 := by decide
  have hn64 : unsigned 64 (n : ℤ) = n := unsigned_natCast (by omega)
  have hbody : ∀ (a : ArrayObject) (s₁ : State α) cells dcells, Fits s₁ s₁.array cells →
      Fits s₁ a dcells → s₁.array = s.array → a.data ≠ s.array.data → a.start = 0 →
      a.size = n + spareLength → s₁.Fresh →
      (Safe (do
        let array ← getArray
        copyValues a.data a.start array.data (unsigned 64 (array.start + (st : ℤ))) n
        return a) s₁ ↔ n = 0 ∨ s.array.start + st + n ≤ s.array.size) := by
    intro a s₁ cells dcells hfits hdfits harray hdata hstart hsize hfresh
    have hcells := hfits.size
    have hdcells := hdfits.size
    have hbound := hfits.bound
    have hroom := hfits.room
    rw [safe_bind_ok_iff (getArray_run s₁), unsigned_of_nonneg (by omega) (by omega),
      show ((s₁.array.start : ℤ) + st).toNat = s₁.array.start + st by omega, ← harray]
    constructor
    · intro h
      by_contra hout
      exact not_safe_of_none (Lib.run_bind_none (copyValues_run_none (n := n) hfits.live
        (by omega) (by omega) hdfits.live (by omega) (by rw [harray]; exact hdata.symm))) h
    · intro hin
      by_cases hzero : n = 0
      · subst hzero
        exact .bind_ok (show (copyValues a.data a.start s₁.array.data (s₁.array.start + st) 0).run
          s₁ = some (.ok (), s₁) from rfl) (.pure (hfits.ok hfresh))
      · refine .bind_ok (copyValues_run hfits.live (by omega) hdfits.live (by omega)
          (by rw [harray]; exact hdata.symm)) (.pure ?_)
        refine Fits.ok ⟨?_, hfits.size, hfits.room, hfits.bound⟩
          (Touches.setBlock _ hfresh (hdfits.data_lt hfresh)).fresh
        rw [State.setBlock_array, State.setBlock_heap_of_ne (by rw [harray]; exact hdata.symm)]
        exact hfits.live
  unfold sliceCopy SliceFits
  rw [hn64]
  constructor
  · intro h
    have hsafe := h (.unlimited α)
    have halloc := @arrayAlloc_fits _ (.unlimited α) _ hok n spareLength hn
    rcases halloc.cases with ⟨a, s₁, hrun, cells, dcells, hfits, hdfits, harray, hdata, hstart,
      hlen, hsize, hfresh⟩ | ⟨e, s₁, -, -, hlong | ⟨r, hr⟩⟩
    · rw [safe_bind_ok_iff hrun, hbody a s₁ cells dcells hfits hdfits harray hdata hstart hsize
        hfresh] at hsafe
      omega
    · exact Or.inr (Or.inl hlong)
    · cases hr
  · intro hcond pool
    refine .bind ((arrayAlloc_fits hok n spareLength hn).mono (fun _ _ h => h)
      fun _ _ h => h.1) ?_
    rintro a s₁ ⟨cells, dcells, hfits, hdfits, harray, hdata, hstart, hlen, hsize, hfresh⟩
    have hdbound := hdfits.bound
    exact (hbody a s₁ cells dcells hfits hdfits harray hdata hstart hsize hfresh).mpr (by omega)

/-- `slice` is safe if and only if the part selected before the conversions lies in the
block that the array has after them. -/
theorem arraySlice_safe_iff (hok : s.Ok) (start stop : Argument α) :
    (∀ pool, Safe (arraySlice pool start stop) s) ↔
      ∀ st n s', (sliceRange start stop).run s = some (.ok (st, n), s') →
        SliceFits s'.array st.toNat n.toNat := by
  have hrange := sliceRange_spec hok start stop
  have hlength := hok.length_le
  have hiff : ∀ pool, Safe (arraySlice pool start stop) s ↔ ∀ r s',
      (sliceRange start stop).run s = some (.ok r, s') → Safe (sliceCopy pool r.1 r.2) s' :=
    fun pool => safe_bind_iff (hrange.mono (fun _ _ h => h) fun _ _ h => h)
  simp only [hiff]
  constructor
  · intro h st n s' hrun
    obtain ⟨hok', i, j, hr, hle⟩ := hrange.of_run_ok hrun
    obtain ⟨rfl, rfl⟩ := Prod.mk.inj hr
    exact (sliceCopy_safe_iff hok' (by omega) (by omega)).mp fun pool => h pool _ s' hrun
  · intro h pool r s' hrun
    obtain ⟨hok', i, j, rfl, hle⟩ := hrange.of_run_ok hrun
    exact (sliceCopy_safe_iff hok' (by omega) (by omega)).mpr (h _ _ s' hrun) pool

/-! ## `fill` -/

/-- The elements to be filled lie in the block. -/
def FillFits (a : ArrayObject) (start stop : ℕ) : Prop := stop ≤ start ∨ a.start + stop ≤ a.size

theorem fillLoop_safe_iff {n i : ℕ} (v : α) (hok : s.Ok) (hi : i + n ≤ maxLength) :
    Safe (fillLoop v i n) s ↔ n = 0 ∨ s.array.start + (i + n) ≤ s.array.size := by
  have hmax : maxLength < 2 ^ 28 := by decide
  induction n generalizing s i with
  | zero => exact ⟨fun _ => Or.inl rfl, fun _ => .pure hok⟩
  | succ n ih =>
    obtain ⟨cells, hfits⟩ := hok.fits
    have hsize := hfits.size
    have hroom := hfits.room
    have hbound := hfits.bound
    unfold fillLoop
    rw [safe_bind_ok_iff (getArray_run s), unsigned_of_nonneg (by omega) (by omega),
      show ((s.array.start : ℤ) + i).toNat = s.array.start + i by omega]
    rcases Nat.lt_or_ge (s.array.start + i) cells.length with hlt | hge
    · have hlen : (Lib.overwrite cells (s.array.start + i) [some v]).length = cells.length :=
        Lib.length_overwrite (by rw [List.length_singleton]; omega)
      have hok' := (hfits.setBlock hlen).ok (s := s.setBlock _ _)
        (Touches.setBlock _ hok.1 (hfits.data_lt hok.1)).fresh
      have hrec := ih (i := i + 1) hok' (by omega)
      rw [safe_bind_ok_iff (store_run hfits.live hlt (some v)),
        show (i : ℤ) + 1 = ((i + 1 : ℕ) : ℤ) by omega]
      refine hrec.trans ?_
      rw [State.setBlock_array]
      omega
    · have hnone := store_run_none hfits.live hge (some v)
      refine ⟨fun h => absurd h (not_safe_of_none (Lib.run_bind_none hnone)), fun h => ?_⟩
      omega

/-- `fill` is safe if and only if the elements selected before the conversions lie in the
block that the array has after them. -/
theorem arrayFill_safe_iff (hok : s.Ok) (v : α) (start stop : Argument α) :
    Safe (arrayFill v start stop) s ↔
      ∀ i j s', (fillRange start stop).run s = some (.ok (i, j), s') →
        FillFits s'.array i.toNat j.toNat := by
  have hrange := fillRange_spec hok start stop
  have hlength := hok.length_le
  have hiff : Safe (arrayFill v start stop) s ↔ ∀ r s',
      (fillRange start stop).run s = some (.ok r, s') →
        Safe (fillLoop v r.1 (r.2 - r.1).toNat) s' :=
    safe_bind_iff (hrange.mono (fun _ _ h => h) fun _ _ h => h)
  have hloop : ∀ s' : State α, s'.Ok → ∀ i j : ℕ, i ≤ s.array.length → j ≤ s.array.length →
      (Safe (fillLoop v i ((j : ℤ) - i).toNat) s' ↔ FillFits s'.array i j) := by
    intro s' hok' i j hi hj
    rw [fillLoop_safe_iff v hok' (by omega), FillFits]
    omega
  rw [hiff]
  constructor
  · intro h st n s' hrun
    obtain ⟨hok', i, j, hr, hi, hj⟩ := hrange.of_run_ok hrun
    obtain ⟨rfl, rfl⟩ := Prod.mk.inj hr
    exact (hloop s' hok' i j hi hj).mp (h _ s' hrun)
  · intro h r s' hrun
    obtain ⟨hok', i, j, rfl, hi, hj⟩ := hrange.of_run_ok hrun
    exact (hloop s' hok' i j hi hj).mpr (h _ _ s' hrun)

/-! ## `copyWithin` -/

/-- An array with named properties is copied with checks at every index. Otherwise both
parts lie in the block. -/
def CopyWithinFits (s : State α) (dst src n : ℕ) : Prop :=
  s.hash.isEmpty = false ∨ n = 0 ∨
    (s.array.start + dst + n ≤ s.array.size ∧ s.array.start + src + n ≤ s.array.size)

theorem copyElementsLoop_safe_iff {n : ℕ} {dir dst src : ℤ} (hok : s.Ok)
    (hbounds : ∀ k : ℕ, k < n → 0 ≤ dst + dir * k ∧ dst + dir * k ≤ maxLength ∧
      0 ≤ src + dir * k ∧ src + dir * k ≤ maxLength) :
    Safe (copyElementsLoop dir dst src n) s ↔ ∀ k : ℕ, k < n →
      s.array.start + (src + dir * k) < s.array.size ∧
        s.array.start + (dst + dir * k) < s.array.size := by
  have hmax : maxLength < 2 ^ 28 := by decide
  induction n generalizing s dst src with
  | zero => exact ⟨fun _ k hk => absurd hk (Nat.not_lt_zero k), fun _ => .pure hok⟩
  | succ n ih =>
    obtain ⟨cells, hfits⟩ := hok.fits
    have hsize := hfits.size
    have hroom := hfits.room
    have hbound := hfits.bound
    have hfirst := hbounds 0 (Nat.succ_pos n)
    simp only [Nat.cast_zero, mul_zero, add_zero] at hfirst
    have hshift : ∀ x : ℤ, ∀ k : ℕ, x + dir + dir * k = x + dir * ((k + 1 : ℕ) : ℤ) := by
      intro x k
      push_cast
      ring
    have hrest : ∀ k : ℕ, k < n → 0 ≤ dst + dir + dir * k ∧ dst + dir + dir * k ≤ maxLength ∧
        0 ≤ src + dir + dir * k ∧ src + dir + dir * k ≤ maxLength := by
      intro k hk
      rw [hshift, hshift]
      exact hbounds (k + 1) (by omega)
    have hsplit : (∀ k : ℕ, k < n + 1 → s.array.start + (src + dir * k) < s.array.size ∧
        s.array.start + (dst + dir * k) < s.array.size) ↔
        (s.array.start + src < s.array.size ∧ s.array.start + dst < s.array.size) ∧
        ∀ k : ℕ, k < n → s.array.start + (src + dir + dir * k) < s.array.size ∧
          s.array.start + (dst + dir + dir * k) < s.array.size := by
      rw [Nat.forall_lt_succ_left]
      simp only [hshift, Nat.cast_zero, mul_zero, add_zero]
    rw [hsplit]
    unfold copyElementsLoop
    rw [safe_bind_ok_iff (getArray_run s), unsigned_of_nonneg (by omega) (by omega),
      unsigned_of_nonneg (by omega) (by omega)]
    rcases Nat.lt_or_ge ((s.array.start : ℤ) + src).toNat cells.length with hsrc | hsrc
    · rw [safe_bind_ok_iff (load_run hfits.live hsrc)]
      rcases Nat.lt_or_ge ((s.array.start : ℤ) + dst).toNat cells.length with hdst | hdst
      · have hlen : (Lib.overwrite cells ((s.array.start : ℤ) + dst).toNat
            [cells[((s.array.start : ℤ) + src).toNat]]).length = cells.length :=
          Lib.length_overwrite (by rw [List.length_singleton]; omega)
        have hok' := (hfits.setBlock hlen).ok (s := s.setBlock _ _)
          (Touches.setBlock _ hok.1 (hfits.data_lt hok.1)).fresh
        rw [safe_bind_ok_iff (store_run hfits.live hdst _)]
        refine (ih hok' hrest).trans ⟨fun h => ⟨by omega, h⟩, fun h => h.2⟩
      · refine ⟨fun h => absurd h (not_safe_of_none
          (Lib.run_bind_none (store_run_none hfits.live hdst _))), fun h => ?_⟩
        omega
    · refine ⟨fun h => absurd h (not_safe_of_none
        (Lib.run_bind_none (load_run_none hfits.live hsrc))), fun h => ?_⟩
      omega

theorem Holds.ok {l : List (Option α)} (h : Holds s s.array l) (hfresh : s.Fresh) : s.Ok :=
  ⟨hfresh, l, h⟩

theorem arrayPropertyGet_safe (hok : s.Ok) (index : ℕ) : Safe (arrayPropertyGet index) s := by
  obtain ⟨cells, hfits⟩ := hok.fits
  have hroom := hfits.room
  have hsize := hfits.size
  unfold arrayPropertyGet
  refine .bind_ok (getArray_run s) ?_
  by_cases hindex : s.array.length ≤ index
  · rw [if_pos hindex]
    exact .pure hok
  · rw [if_neg hindex]
    exact .of_ok (load_run hfits.live (by omega)) hok

theorem putProperty_safe (hok : s.Ok) (index : ℕ) (v : Option α) :
    Safe (putProperty pool index v) s := by
  rcases v with - | v
  · obtain ⟨cells, hfits⟩ := hok.fits
    have hroom := hfits.room
    have hsize := hfits.size
    change Safe (deleteArrayIndex index) s
    unfold deleteArrayIndex
    refine .bind_ok (getArray_run s) ?_
    by_cases hindex : s.array.length ≤ index
    · rw [if_pos hindex]
      exact .pure hok
    · rw [if_neg hindex]
      have hlen : (Lib.overwrite cells (s.array.start + index) [none]).length = cells.length :=
        Lib.length_overwrite (by rw [List.length_singleton]; omega)
      exact .of_ok (store_run hfits.live (by omega) none)
        ((hfits.setBlock hlen).ok (Touches.setBlock _ hok.1 (hfits.data_lt hok.1)).fresh)
  · obtain ⟨hfresh, l, hholds⟩ := hok
    refine (setArrayIndex_spec hfresh hholds index v).mono ?_ ?_
    · rintro - s' ⟨hholds', hchanges⟩
      exact hholds'.ok hchanges.fresh
    · rintro e s' ⟨-, hun⟩
      exact (hun.holds hholds).ok hun.changes.fresh

theorem copyPropertiesLoop_safe {n : ℕ} (hok : s.Ok) (dir dst src : ℤ) :
    Safe (copyPropertiesLoop pool dir dst src n) s := by
  induction n generalizing s dst src with
  | zero => exact .pure hok
  | succ n ih =>
    exact .bind (arrayPropertyGet_safe hok _) fun v s₁ hok₁ =>
      .bind (putProperty_safe hok₁ _ v) fun _ s₂ hok₂ => ih hok₂ _ _

/-- The loop that follows the conversions of `copyWithin`. -/
theorem copyWithinLoop_safe_iff (hok : s.Ok) {dst src : ℕ} {count : ℤ}
    (hdst : dst + count ≤ maxLength) (hsrc : src + count ≤ maxLength) :
    (∀ pool, Safe (do
      let s ← get
      if s.hash.isEmpty then
        copyElementsLoop (copyWithinStart dst src count).1 (copyWithinStart dst src count).2.1
          (copyWithinStart dst src count).2.2 count.toNat
      else
        copyPropertiesLoop pool (copyWithinStart dst src count).1
          (copyWithinStart dst src count).2.1 (copyWithinStart dst src count).2.2 count.toNat) s) ↔
      CopyWithinFits s dst src count.toNat := by
  have hget : (get : Vm α (State α)).run s = some (.ok s, s) := rfl
  simp only [safe_bind_ok_iff hget]
  unfold CopyWithinFits
  by_cases hhash : s.hash.isEmpty
  · have : Nonempty (Pool α) := ⟨.unlimited α⟩
    simp only [hhash, ↓reduceIte, Bool.true_eq_false, false_or]
    unfold copyWithinStart
    split_ifs with hback
    · simp only
      rw [forall_const, copyElementsLoop_safe_iff hok (by intro k hk; omega)]
      constructor
      · intro h
        by_contra hout
        have h0 := h 0 (by omega)
        omega
      · intro h k hk
        omega
    · simp only
      rw [forall_const, copyElementsLoop_safe_iff hok (by intro k hk; omega)]
      constructor
      · intro h
        by_contra hout
        have h0 := h (count.toNat - 1) (by omega)
        omega
      · intro h k hk
        omega
  · simp only [if_neg hhash]
    rw [Bool.not_eq_true] at hhash
    exact ⟨fun _ => Or.inl hhash, fun _ pool => copyPropertiesLoop_safe hok _ _ _⟩

/-- `copyWithin` is safe if and only if the parts selected before the conversions lie in the
block that the array has after them, or named properties make it check every index. -/
theorem arrayCopyWithin_safe_iff (hok : s.Ok) (dst src stop : Argument α) :
    (∀ pool, Safe (arrayCopyWithin pool dst src stop) s) ↔
      ∀ i j n s', (copyWithinRange dst src stop).run s = some (.ok (i, j, n), s') →
        CopyWithinFits s' i.toNat j.toNat n.toNat := by
  have hrange := copyWithinRange_spec hok dst src stop
  have hlength := hok.length_le
  have hiff : ∀ pool, Safe (arrayCopyWithin pool dst src stop) s ↔ ∀ r s',
      (copyWithinRange dst src stop).run s = some (.ok r, s') → Safe (do
      let s ← get
      if s.hash.isEmpty then
        copyElementsLoop (copyWithinStart r.1 r.2.1 r.2.2).1 (copyWithinStart r.1 r.2.1 r.2.2).2.1
          (copyWithinStart r.1 r.2.1 r.2.2).2.2 r.2.2.toNat
      else
        copyPropertiesLoop pool (copyWithinStart r.1 r.2.1 r.2.2).1
          (copyWithinStart r.1 r.2.1 r.2.2).2.1 (copyWithinStart r.1 r.2.1 r.2.2).2.2
          r.2.2.toNat) s' :=
    fun pool => safe_bind_iff (hrange.mono (fun _ _ h => h) fun _ _ h => h)
  simp only [hiff]
  constructor
  · intro h dst' src' n s' hrun
    obtain ⟨hok', i, j, hi, hj, h1, h2, h3, h4⟩ := hrange.of_run_ok hrun
    simp only at hi hj h1 h2
    subst hi hj
    exact (copyWithinLoop_safe_iff hok' (by omega) (by omega)).mp
      fun pool => h pool _ s' hrun
  · rintro h pool ⟨dst', src', n⟩ s' hrun
    obtain ⟨hok', i, j, hi, hj, h1, h2, h3, h4⟩ := hrange.of_run_ok hrun
    simp only at hi hj h1 h2
    subst hi hj
    exact (copyWithinLoop_safe_iff hok' (by omega) (by omega)).mpr
      (h _ _ _ s' hrun) pool

/-! ## `splice` -/

/-- The deleted elements lie in the block, and unless there are as many items they lie
before the end of the elements, or there is no room for the items. -/
def SpliceFits (a : ArrayObject) (start delete items : ℕ) : Prop :=
  (delete = 0 ∨ a.start + start + delete ≤ a.size) ∧
    (items = delete ∨ start + delete ≤ a.length ∨
      (delete < items ∧ a.hasRoom 0 (items - delete) = false ∧
        maxLength < expandedSize 0 a.length (items - delete)))

/-- With as many items as deleted elements nothing moves. -/
theorem spliceRelocate_run_same (st k : ℕ) :
    (spliceRelocate pool st k k).run s = some (.ok (), s) := by
  unfold spliceRelocate
  rw [if_neg (by simp)]
  rfl

/-- Where the array is shorter than the part to be deleted, the number of values to be moved
is negative, and taken as one that is not. -/
theorem memmove_run_none_of_lt {st d : ℕ} {i j : ℕ} (hfits : Fits s s.array cells)
    (hd : st + d ≤ maxLength) (hlt : s.array.length < st + d) :
    (memmove s.array.data j s.array.data i
      (unsigned 64 (((s.array.length : ℤ) - (st + d)) * 16) / 16)).run s = none := by
  have hmax : maxLength < 2 ^ 28 := by decide
  have hsize := hfits.size
  have hbound := hfits.bound
  have hcount : unsigned 64 (((s.array.length : ℤ) - (st + d)) * 16) / 16 =
      2 ^ 60 - (st + d - s.array.length) := by
    unfold unsigned
    omega
  refine memmove_run_none hfits.live ?_
  rw [hcount]
  omega

/-- The relocation of elements behind the end of the array is not defined, unless the
expansion before it throws. -/
theorem spliceRelocate_run_none {st d k : ℕ} (hok : s.Ok) (hne : k ≠ d) (hk : k ≤ 2 ^ 14)
    (hd : st + d ≤ maxLength) (hlt : s.array.length < st + d)
    (hroom : ¬(d < k ∧ s.array.hasRoom 0 (k - d) = false ∧
      maxLength < expandedSize 0 s.array.length (k - d))) :
    (spliceRelocate (.unlimited α) st d k).run s = none := by
  obtain ⟨cells, hfits⟩ := hok.fits
  unfold spliceRelocate
  rw [if_pos (by omega)]
  by_cases hpos : d < k
  · have hexpand := @arrayExpand_spec _ (.unlimited α) _ _ _ 0 (k - d) ⟨cells, hfits, rfl⟩ hok.1
    rcases hexpand.cases with ⟨a', s₁, hrun, ⟨cells', hfits', -⟩, -, -, hlength, -⟩ |
      ⟨e, s₁, -, -, -, hlong | ⟨r, hr⟩⟩
    · have hgrow : (spliceExpand (.unlimited α) ((k : ℤ) - d)).run s =
          some (.ok (), s₁.withArray a') := by
        unfold spliceExpand expand
        rw [if_pos (by omega), unsigned_of_nonneg (by omega) (by omega),
          show ((k : ℤ) - d).toNat = k - d by omega, Lib.run_bind_ok (getArray_run s),
          Lib.run_bind_ok hrun]
        rfl
      have hfits₁ : Fits (s₁.withArray a') (s₁.withArray a').array cells' :=
        ⟨hfits'.live, hfits'.size, hfits'.room, hfits'.bound⟩
      rw [Lib.run_bind_ok hgrow, Lib.run_bind_ok (getArray_run _)]
      exact Lib.run_bind_none (memmove_run_none_of_lt hfits₁ hd (by
        rw [State.withArray_array]
        omega))
    · exact absurd ⟨hpos, hlong⟩ hroom
    · cases hr
  · have hgrow : (spliceExpand (.unlimited α) ((k : ℤ) - d)).run s = some (.ok (), s) := by
      unfold spliceExpand
      rw [if_neg (by omega)]
      rfl
    rw [Lib.run_bind_ok hgrow, Lib.run_bind_ok (getArray_run _)]
    exact Lib.run_bind_none (memmove_run_none_of_lt hfits hd hlt)

/-- The relocation throws where the array cannot grow so far. -/
theorem spliceRelocate_run_error {st d k : ℕ} (hk : k ≤ 2 ^ 14) (hpos : d < k)
    (hroom : s.array.hasRoom 0 (k - d) = false)
    (hlong : maxLength < expandedSize 0 s.array.length (k - d)) :
    (spliceRelocate pool st d k).run s = some (.error (.engine .memoryError), s) := by
  unfold spliceRelocate
  rw [if_pos (by omega)]
  refine Lib.run_bind_error ?_
  unfold spliceExpand expand
  rw [if_pos (by omega), unsigned_of_nonneg (by omega) (by omega),
    show ((k : ℤ) - d).toNat = k - d by omega, Lib.run_bind_ok (getArray_run s)]
  exact Lib.run_bind_error (arrayExpand_run_error hroom hlong)

/-- What follows the copy of the deleted elements. -/
def spliceRest (pool : Pool α) (st d : ℕ) (items : List α) (deleted : ArrayObject) :
    Vm α ArrayObject := do
  spliceRelocate pool st d items.length
  let array ← getArray
  storeValues array.data (unsigned 64 (array.start + (st : ℤ))) items
  return deleted

theorem spliceRest_fits {st d : ℕ} {items : List α} {deleted : ArrayObject} (hok : s.Ok)
    (hd : st + d ≤ maxLength) (hitems : items.length ≤ 2 ^ 14)
    (hin : d = 0 ∨ s.array.start + st + d ≤ s.array.size)
    (h : Safe (spliceRest (.unlimited α) st d items deleted) s) :
    SpliceFits s.array st d items.length := by
  refine ⟨hin, ?_⟩
  by_contra hout
  simp only [not_or] at hout
  have hnone := spliceRelocate_run_none hok hout.1 hitems hd (by omega) hout.2.2
  exact not_safe_of_none (Lib.run_bind_none hnone) h

theorem spliceRest_safe {st d : ℕ} {items : List α} {deleted : ArrayObject} (hok : s.Ok)
    (hd : st + d ≤ maxLength) (hitems : items.length ≤ 2 ^ 14)
    (h : SpliceFits s.array st d items.length) :
    Safe (spliceRest pool st d items deleted) s := by
  have hmax : maxLength < 2 ^ 28 := by decide
  obtain ⟨cells, hfits⟩ := hok.fits
  have hsize := hfits.size
  have hroom := hfits.room
  have hbound := hfits.bound
  unfold spliceRest
  obtain ⟨hin, hsame | hle | ⟨hpos, hno, hlong⟩⟩ := h
  · rw [hsame]
    refine .bind_ok (spliceRelocate_run_same st d) (.bind_ok (getArray_run s) ?_)
    rw [unsigned_of_nonneg (by omega) (by omega),
      show ((s.array.start : ℤ) + st).toNat = s.array.start + st by omega]
    by_cases hnil : items = []
    · subst hnil
      exact .bind_ok (show (storeValues s.array.data (s.array.start + st) []).run s =
        some (.ok (), s) from rfl) (.pure hok)
    · have hpos := List.length_pos_iff.mpr hnil
      have hlen : (Lib.overwrite cells (s.array.start + st) (items.map some)).length =
          cells.length := Lib.length_overwrite (by rw [List.length_map]; omega)
      exact .bind_ok (storeValues_run hfits.live (by omega)) (.pure ((hfits.setBlock hlen).ok
        (Touches.setBlock _ hok.1 (hfits.data_lt hok.1)).fresh))
  · obtain ⟨l, hholds⟩ := hok.2
    have hlength := hholds.length_eq
    refine .bind ((spliceRelocate_spec hok.1 hholds (by omega) hitems).mono (fun _ _ h => h)
      fun e s' h => (h.2.holds hholds).ok h.2.changes.fresh) ?_
    rintro - s₁ ⟨hchanges, c, hfits₁, hcsize, hcroom, -, hclength⟩
    have hroom₁ := hfits₁.room
    have hsize₁ := hfits₁.size
    have hbound₁ := hfits₁.bound
    refine .bind_ok (getArray_run s₁) ?_
    rw [unsigned_of_nonneg (by omega) (by omega),
      show ((s₁.array.start : ℤ) + st).toNat = s₁.array.start + st by omega]
    refine .bind_ok (storeValues_run hfits₁.live (by omega)) (.pure ((hfits₁.setBlock ?_).ok
      (Touches.setBlock _ hchanges.fresh (hfits₁.data_lt hchanges.fresh)).fresh))
    exact Lib.length_overwrite (by rw [List.length_map]; omega)
  · exact .of_error (Lib.run_bind_error (spliceRelocate_run_error hitems hpos hno hlong)) hok

/-- The copy of the deleted elements to a block of their own. -/
theorem copyDeleted_run {d i : ℕ} {deleted : ArrayObject} {dcells : List (Option α)}
    (hok : s.Ok) (hdfits : Fits s deleted dcells) (hne : deleted.data ≠ s.array.data)
    (hstart : deleted.start = 0) (hsize : deleted.size = d)
    (hin : d = 0 ∨ i + d ≤ s.array.size) :
    ∃ s', (copyValues deleted.data deleted.start s.array.data i d).run s = some (.ok (), s') ∧
      s'.Ok ∧ s'.array = s.array := by
  obtain ⟨cells, hfits⟩ := hok.fits
  have hcells := hfits.size
  have hdcells := hdfits.size
  by_cases hzero : d = 0
  · subst hzero
    exact ⟨s, rfl, hok, rfl⟩
  · refine ⟨_, copyValues_run hfits.live (by omega) hdfits.live (by omega) hne.symm, ?_, rfl⟩
    refine Fits.ok ⟨?_, hfits.size, hfits.room, hfits.bound⟩
      (Touches.setBlock _ hok.1 (hdfits.data_lt hok.1)).fresh
    rw [State.setBlock_array, State.setBlock_heap_of_ne hne.symm]
    exact hfits.live

/-- Once the range is known, `splice` is safe if and only if the range fits the array. -/
theorem spliceItems_safe_iff {st d : ℕ} {items : List α} (hok : s.Ok)
    (hd : st + d ≤ maxLength) (hitems : items.length ≤ 2 ^ 14) :
    (∀ pool, Safe (spliceItems pool st d items) s) ↔ SpliceFits s.array st d items.length := by
  have hmax : maxLength < 2 ^ 28 := by decide
  have hlength := hok.length_le
  have hindex : ∀ s₁ : State α, s₁.array = s.array → s₁.Ok →
      unsigned 64 ((s₁.array.start : ℤ) + st) = s₁.array.start + st := by
    intro s₁ harray hok₁
    obtain ⟨cells, hfits⟩ := hok₁.fits
    have hroom := hfits.room
    have hbound := hfits.bound
    rw [unsigned_of_nonneg (by omega) (by omega)]
    omega
  unfold spliceItems
  rw [unsigned_natCast (w := 64) (n := d) (by omega)]
  constructor
  · intro h
    have hsafe := h (.unlimited α)
    rcases (arrayAlloc_fits hok d 0 (by omega)).cases with
      ⟨deleted, s₁, hrun, cells, dcells, hfits, hdfits, harray, hdata, hstart, hlen, hsize,
        hfresh⟩ | ⟨e, s₁, -, -, hlong | ⟨r, hr⟩⟩
    · have hok₁ := hfits.ok hfresh
      have hcells := hfits.size
      have hdcells := hdfits.size
      rw [safe_bind_ok_iff hrun, safe_bind_ok_iff (getArray_run s₁), hindex s₁ harray hok₁]
        at hsafe
      by_cases hin : d = 0 ∨ s₁.array.start + st + d ≤ s₁.array.size
      · obtain ⟨s₂, hcopy, hok₂, harray₂⟩ := copyDeleted_run hok₁ hdfits
          (by rw [harray]; exact hdata) hstart (hsize.trans (Nat.add_zero d)) hin
        rw [safe_bind_ok_iff hcopy] at hsafe
        have hrest := spliceRest_fits hok₂ hd hitems (by rwa [harray₂]) hsafe
        rwa [harray₂, harray] at hrest
      · exact absurd hsafe (not_safe_of_none (Lib.run_bind_none (copyValues_run_none hfits.live
          (by omega) (by omega) hdfits.live (by omega) (by rw [harray]; exact hdata.symm))))
    · omega
    · cases hr
  · intro hcond pool
    refine .bind ((arrayAlloc_fits hok d 0 (by omega)).mono (fun _ _ h => h)
      fun _ _ h => h.1) ?_
    rintro deleted s₁ ⟨cells, dcells, hfits, hdfits, harray, hdata, hstart, hlen, hsize, hfresh⟩
    have hok₁ := hfits.ok hfresh
    rw [← harray] at hcond hdata
    refine .bind_ok (getArray_run s₁) ?_
    rw [hindex s₁ harray hok₁]
    obtain ⟨s₂, hcopy, hok₂, harray₂⟩ := copyDeleted_run hok₁ hdfits hdata hstart
      (hsize.trans (Nat.add_zero d)) hcond.1
    refine .bind_ok hcopy ?_
    rw [← harray₂] at hcond
    exact spliceRest_safe hok₂ hd hitems hcond

/-- `splice` is safe if and only if the part selected before the conversions fits the array
as it is after them. -/
theorem arraySplice_safe_iff (hok : s.Ok) (args : SpliceArguments α) :
    (∀ pool, Safe (arraySplice pool args) s) ↔
      ∀ st d s', (spliceRange args).run s = some (.ok (st, d), s') →
        SpliceFits s'.array st.toNat d.toNat args.items.length := by
  have hrange := spliceRange_spec hok args
  have hlength := hok.length_le
  have hitems := args.items_length
  have hiff : ∀ pool, Safe (arraySplice pool args) s ↔ ∀ r s',
      (spliceRange args).run s = some (.ok r, s') →
        Safe (spliceItems pool r.1 r.2 args.items) s' :=
    fun pool => safe_bind_iff (hrange.mono (fun _ _ h => h) fun _ _ h => h)
  simp only [hiff]
  constructor
  · intro h st d s' hrun
    obtain ⟨hok', i, j, hr, hle⟩ := hrange.of_run_ok hrun
    obtain ⟨rfl, rfl⟩ := Prod.mk.inj hr
    exact (spliceItems_safe_iff hok' (by omega) hitems).mp fun pool => h pool _ s' hrun
  · intro h pool r s' hrun
    obtain ⟨hok', i, j, rfl, hle⟩ := hrange.of_run_ok hrun
    exact (spliceItems_safe_iff hok' (by omega) hitems).mpr (h _ _ s' hrun) pool

end Njs.Array
