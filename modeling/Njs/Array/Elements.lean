import Njs.Array.Methods

/-!
# What the methods do to the elements

For each method that changes an array, the list of its elements afterwards. An exception
leaves the array as it was.
-/

namespace Njs.Array

variable {α : Type} {pool : Pool α} {s s' : State α} {cells : List (Option α)}
  {l : List (Option α)}

/-- The block of the array is live and fits its header. -/
theorem Holds.fits (h : Holds s s.array l) :
    ∃ cells, Fits s s.array cells ∧ Lib.window cells s.array.start s.array.length = l := h

theorem getElem?_of_window {st n i : ℕ} (hl : Lib.window cells st n = l) (hi : i < n) :
    l[i]? = cells[st + i]? := by
  rw [← hl, Lib.getElem?_window, if_pos hi]

/-- Elements written into the block of the array, under a header that fits. -/
theorem holds_setBlock {a : ArrayObject} (hfits : Fits s s.array cells)
    {cells' l' : List (Option α)} (hcells : cells'.length = cells.length)
    (hdata : a.data = s.array.data) (hsize : a.size = s.array.size)
    (hroom : a.start + a.length ≤ a.size)
    (hl : Lib.window cells' a.start a.length = l') :
    Holds ((s.setBlock s.array.data cells').withArray a) a l' := by
  refine ⟨cells', ⟨?_, ?_, hroom, hsize ▸ hfits.bound⟩, hl⟩
  · rw [State.withArray_heap, hdata]
    exact State.setBlock_heap_self ..
  · rw [hcells, hfits.size, hsize]

theorem Changes.setElements {a : ArrayObject} (hfresh : s.Fresh) (hfits : Fits s s.array cells)
    (cells' : List (Option α)) (hdata : a.data = s.array.data) :
    Changes s ((s.setBlock s.array.data cells').withArray a) :=
  ((Changes.refl hfresh).setBlock (hfits.data_lt hfresh) cells').withArray (by simpa using hdata)

/-! ## `push` -/

theorem pushValues_run {values : List α} (h : s.heap s.array.data = some cells)
    (hroom : s.array.start + s.array.length + values.length ≤ cells.length) :
    (pushValues values).run s = some (.ok (),
      (s.setBlock s.array.data (Lib.overwrite cells (s.array.start + s.array.length)
        (values.map some))).withArray
          { s.array with length := s.array.length + values.length }) := by
  induction values generalizing s cells with
  | nil =>
    rw [List.map_nil, Lib.overwrite_nil, State.setBlock_self h]
    rfl
  | cons v values ih =>
    rw [List.length_cons] at hroom
    have hone : s.array.start + s.array.length + [some v].length ≤ cells.length := by
      rw [List.length_singleton]
      omega
    have hcons := @Lib.overwrite_cons _ cells (values.map some) (s.array.start + s.array.length)
      (some v) (by rw [List.length_map]; omega)
    unfold pushValues
    rw [Lib.run_bind_ok (getArray_run s), Lib.run_bind_ok (store_run h (by omega) (some v)),
      Lib.run_bind_ok (setArray_run _ _),
      ih
        (State.setBlock_heap_self ..) (by rw [Lib.length_overwrite hone]; simp; omega),
      List.map_cons, ← hcons]
    simp [State.setBlock, State.withArray, Nat.add_assoc, Nat.add_comm 1]

/-- `push` appends its arguments. -/
theorem arrayPush_spec (hfresh : s.Fresh) (h : Holds s s.array l) (args : ArgumentList α) :
    Lib.Outcome (arrayPush pool args) s
      (fun n s' => n = (l ++ args.values.map some).length ∧
        Holds s' s'.array (l ++ args.values.map some) ∧ Changes s s')
      (Failed s) := by
  unfold arrayPush
  refine .bind (expand_spec hfresh h) ?_
  rintro - s₁ ⟨hholds, hchanges, -, -, hroom⟩
  have hlength := hholds.length_eq
  obtain ⟨cells, hfits, hl⟩ := hholds.fits
  have hroom' : s₁.array.start + s₁.array.length + args.values.length ≤ cells.length := by
    rw [hfits.size]
    omega
  refine .bind_ok (pushValues_run hfits.live hroom') (.bind_ok (getArray_run _) (.pure ?_))
  refine ⟨?_, ?_, hchanges.trans (Changes.setElements hchanges.fresh hfits _ rfl)⟩
  · rw [State.withArray_array, List.length_append, List.length_map]
    simp only
    omega
  · refine holds_setBlock hfits ?_ rfl rfl (by simp only; omega) ?_
    · rw [Lib.length_overwrite (by rw [List.length_map]; omega)]
    · rw [← hl]
      have happend := @Lib.window_overwrite_append _ cells (args.values.map some) s₁.array.start
        s₁.array.length (by rw [List.length_map]; omega)
      rwa [List.length_map] at happend

/-! ## `pop` and `shift` -/

/-- `pop` removes the last element, and returns it unless it is a hole. -/
theorem arrayPop_spec (hfresh : s.Fresh) (h : Holds s s.array l) :
    Lib.Outcome arrayPop s
      (fun v s' => v = l.getLast?.join ∧ Holds s' s'.array l.dropLast ∧ Changes s s')
      (Failed s) := by
  have hlength := h.length_eq
  obtain ⟨cells, hfits, hl⟩ := h.fits
  have hroom := hfits.room
  have hsize := hfits.size
  unfold arrayPop
  refine .bind_ok (getArray_run s) ?_
  by_cases hzero : s.array.length = 0
  · have hnil : l = [] := List.length_eq_zero_iff.mp (hlength.trans hzero)
    rw [if_neg (by simpa using hzero)]
    subst hnil
    exact .pure ⟨rfl, h, .refl hfresh⟩
  · rw [if_pos hzero]
    have hlive : ∀ a, (s.withArray a).heap s.array.data = some cells := fun _ => hfits.live
    refine .bind_ok (setArray_run _ _) (.of_ok
      (load_run (i := s.array.start + (s.array.length - 1)) (hlive _) (by omega)) ⟨?_, ?_, ?_⟩)
    · have hget := getElem?_of_window hl (i := s.array.length - 1) (by omega)
      rw [List.getLast?_eq_getElem?, hlength, hget, List.getElem?_eq_getElem (by omega)]
      rfl
    · refine ⟨cells, ⟨hfits.live, hfits.size, by simp only [State.withArray_array]; omega,
        hfits.bound⟩, ?_⟩
      rw [List.dropLast_eq_take, hlength, ← hl]
      simp only [State.withArray_array, Lib.window, List.take_take]
      congr 1
      omega
    · exact (Changes.refl hfresh).withArray rfl

/-- `shift` removes the first element, and returns it unless it is a hole. -/
theorem arrayShift_spec (hfresh : s.Fresh) (h : Holds s s.array l) :
    Lib.Outcome arrayShift s
      (fun v s' => v = l.head?.join ∧ Holds s' s'.array l.tail ∧ Changes s s')
      (Failed s) := by
  have hlength := h.length_eq
  obtain ⟨cells, hfits, hl⟩ := h.fits
  have hroom := hfits.room
  have hsize := hfits.size
  unfold arrayShift
  refine .bind_ok (getArray_run s) ?_
  by_cases hzero : s.array.length = 0
  · have hnil : l = [] := List.length_eq_zero_iff.mp (hlength.trans hzero)
    rw [if_neg (by simpa using hzero)]
    subst hnil
    exact .pure ⟨rfl, h, .refl hfresh⟩
  · rw [if_pos hzero]
    have hlive : ∀ a, (s.withArray a).heap s.array.data = some cells := fun _ => hfits.live
    refine .bind_ok (setArray_run _ _) (.of_ok
      (load_run (i := s.array.start) (hlive _) (by omega)) ⟨?_, ?_, ?_⟩)
    · have hget := getElem?_of_window hl (i := 0) (by omega)
      rw [List.head?_eq_getElem?, hget, List.getElem?_eq_getElem (l := cells) (by omega)]
      rfl
    · refine ⟨cells, ⟨hfits.live, hfits.size, by simp only [State.withArray_array]; omega,
        hfits.bound⟩, ?_⟩
      rw [← List.drop_one, ← hl]
      simp only [State.withArray_array, Lib.window, List.drop_take, List.drop_drop]
    · exact (Changes.refl hfresh).withArray rfl

/-! ## `unshift` -/

theorem unshiftValues_run {values : List α} (h : s.heap s.array.data = some cells)
    (hroom : values.length ≤ s.array.start) (hstart : s.array.start ≤ cells.length) :
    (unshiftValues values).run s = some (.ok (),
      (s.setBlock s.array.data (Lib.overwrite cells (s.array.start - values.length)
        (values.reverse.map some))).withArray
          { s.array with start := s.array.start - values.length }) := by
  induction values generalizing s cells with
  | nil =>
    rw [List.reverse_nil, List.map_nil, Lib.overwrite_nil, State.setBlock_self h]
    rfl
  | cons v values ih =>
    rw [List.length_cons] at hroom
    have hone : s.array.start - 1 + [some v].length ≤ cells.length := by
      rw [List.length_singleton]
      omega
    have hlive : ∀ a, (s.withArray a).heap s.array.data = some cells := fun _ => h
    have hpre := @Lib.overwrite_overwrite_prepend _ cells (values.reverse.map some) [some v]
      (s.array.start - (values.length + 1))
      (by rw [List.length_map, List.length_reverse, List.length_singleton]; omega)
    rw [List.length_map, List.length_reverse,
      show s.array.start - (values.length + 1) + values.length = s.array.start - 1 by omega] at hpre
    unfold unshiftValues
    rw [Lib.run_bind_ok (getArray_run s), if_neg (by omega), Lib.run_bind_ok (setArray_run _ _),
      Lib.run_bind_ok (store_run (hlive _) (by omega) (some v)),
      ih
        (State.setBlock_heap_self ..) (by simp; omega)
        (by rw [Lib.length_overwrite hone]; simp; omega)]
    simp only [State.setBlock_array, State.withArray_array, List.reverse_cons, List.map_append,
      List.map_cons, List.map_nil, List.length_cons, ← hpre]
    simp [State.setBlock, State.withArray, Nat.sub_sub, Nat.add_comm 1]

/-- `unshift` puts its arguments before the elements. -/
theorem arrayUnshift_spec (hfresh : s.Fresh) (h : Holds s s.array l) (args : ArgumentList α) :
    Lib.Outcome (arrayUnshift pool args) s
      (fun n s' => n = (args.values.map some ++ l).length ∧
        Holds s' s'.array (args.values.map some ++ l) ∧ Changes s s')
      (Failed s) := by
  have hargs := args.length_le
  have hmax : l.length ≤ maxLength := Nat.le_trans (Nat.le_trans (by omega) h.room) h.size_le
  have hlength := h.length_eq
  unfold arrayUnshift
  refine .bind_ok (getArray_run s) ?_
  rw [if_neg (by unfold maxLength at hmax; omega)]
  by_cases hzero : args.values.length = 0
  · rw [if_neg (by simpa using hzero)]
    rw [List.length_eq_zero_iff] at hzero
    refine .pure ⟨?_, ?_, .refl hfresh⟩
    · rw [hzero]
      exact hlength.symm
    · rw [hzero]
      exact h
  · rw [if_pos hzero]
    refine .bind (expand_spec hfresh h) ?_
    rintro - s₁ ⟨hholds, hchanges, hlength₁, hstart, -⟩
    obtain ⟨cells, hfits, hl⟩ := hholds.fits
    have hroom := hfits.room
    have hsize := hfits.size
    refine .bind_ok (getArray_run s₁) (.bind_ok (setArray_run _ _) (.bind_ok
      (unshiftValues_run hfits.live (by simpa using hstart) (by simp; omega))
      (.bind_ok (getArray_run _) (.pure ?_))))
    simp only [State.withArray_array, List.reverse_reverse, List.length_reverse,
      List.length_append, List.length_map]
    refine ⟨by omega, ?_, ?_⟩
    · refine (holds_setBlock (a := { s₁.array with
          start := s₁.array.start - args.values.length
          length := s₁.array.length + args.values.length }) hfits
        ?_ rfl rfl (by simp only; omega) ?_).of_heap_eq rfl
      · rw [Lib.length_overwrite (by rw [List.length_map]; omega)]
      · have hpre := @Lib.window_overwrite_prepend _ cells (args.values.map some)
          (s₁.array.start - args.values.length) s₁.array.length (by rw [List.length_map]; omega)
        rw [List.length_map, Nat.sub_add_cancel hstart] at hpre
        simp only
        rw [Nat.add_comm, hpre, hl]
    · exact hchanges.trans (((Changes.refl hchanges.fresh).withArray
        (a := { s₁.array with length := s₁.array.length + args.values.length }) rfl).setBlock
          (hfits.data_lt hchanges.fresh) _ |>.withArray rfl)

/-! ## `splice` -/

/-- The arithmetic of the relocation does not wrap around. -/
private theorem relocation_indices {start st d k n : ℕ} (hk : k ≤ 2 ^ 14)
    (hroom : start + n ≤ maxLength) (hst : st + d ≤ n) :
    unsigned 64 ((start : ℤ) + ((st : ℤ) + (k : ℤ))) = start + (st + k) ∧
      unsigned 64 ((start : ℤ) + ((st : ℤ) + (d : ℤ))) = start + (st + d) ∧
      unsigned 64 (((n : ℤ) - ((st : ℤ) + (d : ℤ))) * 16) / 16 = n - (st + d) := by
  have hmax : maxLength < 2 ^ 28 := by decide
  refine ⟨?_, ?_, ?_⟩
  · rw [unsigned_of_nonneg (by omega) (by omega)]
    omega
  · rw [unsigned_of_nonneg (by omega) (by omega)]
    omega
  · rw [unsigned_of_nonneg (by omega) (by omega)]
    omega

/-- The relocation leaves room for `k` items in the place of `d` elements. -/
theorem spliceRelocate_spec {st d k : ℕ} (hfresh : s.Fresh) (h : Holds s s.array l)
    (hst : st + d ≤ l.length) (hk : k ≤ 2 ^ 14) :
    Lib.Outcome (spliceRelocate pool st d k) s
      (fun _ s' => Changes s s' ∧ ∃ c, Fits s' s'.array (Lib.overwrite c
          (s'.array.start + (st + k))
          (Lib.window c (s'.array.start + (st + d)) (l.length - (st + d)))) ∧
        c.length = s'.array.size ∧ s'.array.start + l.length ≤ c.length ∧
        Lib.window c s'.array.start l.length = l ∧ s'.array.length = l.length - d + k)
      (Failed s) := by
  have hlength := h.length_eq
  obtain ⟨cells, hfits, hl⟩ := h.fits
  have hsize := hfits.size
  have hroom := hfits.room
  have hbound := hfits.bound
  have hmax : maxLength < 2 ^ 28 := by decide
  unfold spliceRelocate
  by_cases hdelta : (k : ℤ) - d = 0
  · have hkd : k = d := by omega
    subst hkd
    rw [if_neg (by simp)]
    have hsame : Lib.overwrite cells (s.array.start + (st + k))
        (Lib.window cells (s.array.start + (st + k)) (l.length - (st + k))) = cells :=
      Lib.overwrite_window_self (by omega)
    refine .pure ⟨.refl hfresh, cells, ?_, hsize, by omega, by rwa [hlength], by omega⟩
    rwa [hsame]
  · rw [if_pos hdelta]
    have hexpand : Lib.Outcome (spliceExpand pool ((k : ℤ) - d)) s
        (fun _ s' => Holds s' s'.array l ∧ Changes s s' ∧
          s'.array.start + (l.length - d + k) ≤ s'.array.size) (Failed s) := by
      unfold spliceExpand
      split_ifs with hpos
      · refine (expand_spec hfresh h).mono ?_ fun _ _ h => h
        rintro - s₁ ⟨hholds, hchanges, hlength₁, -, hroom₁⟩
        refine ⟨hholds, hchanges, ?_⟩
        rw [unsigned_of_nonneg (by omega) (by omega)] at hroom₁
        omega
      · exact .pure ⟨h, .refl hfresh, by omega⟩
    refine .bind hexpand ?_
    rintro - s₁ ⟨hholds, hchanges, hroom₁⟩
    have hlength₁ := hholds.length_eq
    obtain ⟨c, hfits₁, hl₁⟩ := hholds.fits
    have hsize₁ := hfits₁.size
    have hr₁ := hfits₁.room
    have hb₁ := hfits₁.bound
    obtain ⟨hdst, hsrc, hcount⟩ := @relocation_indices s₁.array.start _ _ _ l.length
      hk (by omega) hst
    rw [hlength₁] at hcount
    refine .bind_ok (getArray_run s₁) ?_
    rw [hdst, hsrc, hcount]
    refine .bind_ok (memmove_run hfits₁.live (by omega) hfits₁.live (by omega))
      (.of_ok (setArray_run _ _) ?_)
    have hnew : unsigned 32 ((s₁.array.length : ℤ) + ((k : ℤ) - d)) = l.length - d + k := by
      rw [unsigned_of_nonneg (by omega) (by omega)]
      omega
    rw [hnew, ← hlength₁]
    refine ⟨hchanges.trans (Changes.setElements hchanges.fresh hfits₁ _ rfl), c,
      ⟨State.setBlock_heap_self .., ?_, ?_, hb₁⟩, hsize₁, ?_, by simpa [hlength₁] using hl₁, rfl⟩
    · simp only [State.withArray_array]
      rw [Lib.length_overwrite (by rw [Lib.length_window (by omega)]; omega)]
      exact hsize₁
    · simp only [State.withArray_array]
      omega
    · simp only [State.withArray_array]
      omega

/-- Once the range is known, `splice` moves its elements to a new array and puts the items
in their place. -/
theorem spliceItems_spec {st d : ℕ} {items : List α} (hfresh : s.Fresh) (h : Holds s s.array l)
    (hst : st + d ≤ l.length) (hitems : items.length ≤ 2 ^ 14) :
    Lib.Outcome (spliceItems pool st d items) s
      (fun deleted s' => Holds s' deleted ((l.drop st).take d) ∧
        Holds s' s'.array (l.take st ++ items.map some ++ l.drop (st + d)) ∧ Changes s s')
      (Failed s) := by
  have hlength := h.length_eq
  have hlt := h.data_lt hfresh
  have hroom := h.room
  have hbound := h.size_le
  have hmax : maxLength < 2 ^ 28 := by decide
  unfold spliceItems
  rw [unsigned_of_nonneg (w := 64) (x := (d : ℤ)) (by omega) (by omega), Int.toNat_natCast]
  refine .bind ((arrayAlloc_spec hfresh d 0).mono (fun _ _ h => h) ?_) ?_
  · rintro e s' (⟨hlong, -⟩ | ⟨-, hrefused⟩)
    · omega
    · exact hrefused.failed hfresh
  rintro deleted s₁ ⟨hdlength, hdstart, hdsize, hdnew, -, ⟨dl, dcells, hdfits, -⟩, htouches⟩
  have hun : Unchanged s s₁ := htouches.unchanged hlt (by simp)
  have h₁ : Holds s₁ s₁.array l := hun.holds h
  obtain ⟨cells, hfits, hl⟩ := h₁.fits
  have hlength₁ := h₁.length_eq
  have hsize₁ := hfits.size
  have hroom₁ := hfits.room
  have hb₁ := hfits.bound
  have hne : s₁.array.data ≠ deleted.data := by
    rw [hun.array]
    omega
  have hdcells : dcells.length = d := by
    rw [hdfits.size]
    omega
  refine .bind_ok (getArray_run s₁) ?_
  rw [unsigned_of_nonneg (by omega) (by omega), hdstart,
    show ((s₁.array.start : ℤ) + st).toNat = s₁.array.start + st by omega]
  refine .bind_ok (copyValues_run hfits.live (by omega) hdfits.live (by omega) hne) ?_
  set s₂ := s₁.setBlock deleted.data (Lib.overwrite dcells 0
    (Lib.window cells (s₁.array.start + st) d)) with hs₂
  have hdlt : deleted.data < s₁.requests := hdfits.data_lt htouches.fresh
  have hwrite : Touches [deleted.data] s₁ s₂ := Touches.setBlock _ htouches.fresh hdlt
  have htouches₂ : Touches [deleted.data] s s₂ :=
    (htouches.mono (by simp)).trans hwrite (by simp)
  have hun₂ : Unchanged s s₂ := htouches₂.unchanged hlt (by simpa using hdnew)
  have h₂ : Holds s₂ s₂.array l := hun₂.holds h
  have hdeleted : Holds s₂ deleted ((l.drop st).take d) := by
    refine ⟨_, ⟨State.setBlock_heap_self .., ?_, hdfits.room, hdfits.bound⟩, ?_⟩
    · rw [Lib.length_overwrite (by rw [Lib.length_window (by omega)]; omega), hdcells, hdsize]
      rfl
    · rw [hdstart, hdlength]
      have hself := @Lib.window_overwrite_self _ dcells (Lib.window cells (s₁.array.start + st) d) 0
        (by rw [Lib.length_window (by omega)]; omega)
      rw [Lib.length_window (by omega)] at hself
      rw [hself, ← hl]
      refine List.ext_getElem? fun j => ?_
      simp only [Lib.getElem?_window, List.getElem?_take, List.getElem?_drop]
      split_ifs <;> first | rfl | omega | (congr 1; omega)
  refine .bind ((spliceRelocate_spec htouches₂.fresh h₂ hst hitems).mono (fun _ _ h => h)
    fun e s' h => ⟨h.1, hun₂.trans h.2⟩) ?_
  rintro - s₃ ⟨hchanges, c, hfits₃, hcsize, hcroom, hcl, hclength⟩
  have hroom₃ := hfits₃.room
  have hb₃ := hfits₃.bound
  refine .bind_ok (getArray_run s₃) ?_
  rw [unsigned_of_nonneg (by omega) (by omega),
    show ((s₃.array.start : ℤ) + st).toNat = s₃.array.start + st by omega]
  have hmoved : (Lib.overwrite c (s₃.array.start + (st + items.length))
      (Lib.window c (s₃.array.start + (st + d)) (l.length - (st + d)))).length = c.length := by
    rw [Lib.length_overwrite (by rw [Lib.length_window (by omega)]; omega)]
  refine .bind_ok (storeValues_run hfits₃.live (by rw [hmoved]; omega)) (.pure ⟨?_, ?_, ?_⟩)
  · have hkeep : s₃.heap deleted.data = s₂.heap deleted.data :=
      hchanges.others _ hdlt fun heq => hne (by rw [heq]; rfl)
    have hne₃ : deleted.data ≠ s₃.array.data := by
      rcases hchanges.data with heq | hge
      · rw [heq]
        exact fun heq => hne (by rw [heq]; rfl)
      · have hreq : s₁.requests ≤ s₃.array.data := hge
        omega
    refine hdeleted.of_heap_eq ?_
    rw [State.setBlock_heap_of_ne hne₃, hkeep]
  · refine (holds_setBlock (a := s₃.array) hfits₃ ?_ rfl rfl hroom₃ ?_).of_heap_eq rfl
    · rw [Lib.length_overwrite (by rw [hmoved, List.length_map]; omega)]
    · have hsplice := Lib.window_splice (l := items.map some)
        (i := s₃.array.start) (n := l.length) (j := st) (d := d) hst hcroom
        (by rw [List.length_map]; omega)
      rw [List.length_map, hcl] at hsplice
      rw [hclength]
      exact hsplice
  · exact hun₂.changes.trans (hchanges.trans ((Changes.refl hchanges.fresh).setBlock
      (hfits₃.data_lt hchanges.fresh) _))

/-! ## Assignment of the length and of an index past the end -/

/-- Behind the elements there are `n` holes in the block. -/
def HoldsHoles (s : State α) (l : List (Option α)) (n : ℕ) : Prop :=
  s.array.start + (l.length + n) ≤ s.array.size ∧
    ∃ cells, Fits s s.array cells ∧
      Lib.window cells s.array.start (l.length + n) = l ++ List.replicate n none

/-- Room is made behind the elements, and holes are written there. -/
theorem expandInvalid_spec {n m : ℕ} (hfresh : s.Fresh) (h : Holds s s.array l) (hm : n ≤ m) :
    Lib.Outcome (expandInvalid pool m n) s
      (fun _ s' => Changes s s' ∧ s'.array.start + (l.length + m) ≤ s'.array.size ∧
        HoldsHoles s' l n)
      (Failed s) := by
  unfold expandInvalid
  refine .bind (expand_spec hfresh h) ?_
  rintro - s₁ ⟨hholds, hchanges, hlength₁, -, hroom₁⟩
  have hl₁ := hholds.length_eq
  obtain ⟨cells, hfits, hl⟩ := hholds.fits
  have hsize := hfits.size
  refine .bind_ok (getArray_run s₁) (.of_ok (setInvalid_run hfits.live (by omega)) ?_)
  refine ⟨hchanges.trans ((Changes.refl hchanges.fresh).setBlock
    (hfits.data_lt hchanges.fresh) _), by simp only [State.setBlock_array]; omega,
    by simp only [State.setBlock_array]; omega, _,
    ⟨State.setBlock_heap_self .., ?_, hfits.room, hfits.bound⟩, ?_⟩
  · rw [Lib.length_overwrite (by rw [List.length_replicate]; omega)]
    exact hsize
  · have happend := @Lib.window_overwrite_append _ cells (List.replicate n (none : Option α))
      s₁.array.start s₁.array.length (by rw [List.length_replicate]; omega)
    rw [List.length_replicate, hl] at happend
    rw [State.setBlock_array, hl₁]
    exact happend

/-- Holes become elements with a new length. -/
theorem HoldsHoles.withLength {n length : ℕ} (h : HoldsHoles s l n)
    (hlength : length = l.length + n) :
    Holds (s.withArray { s.array with length := length }) { s.array with length := length }
      (l ++ List.replicate n none) := by
  obtain ⟨hroom, cells, hfits, hl⟩ := h
  refine ⟨cells, ⟨hfits.live, hfits.size, ?_, hfits.bound⟩, ?_⟩
  · simp only
    omega
  · simp only
    rw [hlength, hl]

/-- The number is a length that an array can be given. -/
def IsLength (num : Number) (n : ℕ) : Prop := n < 2 ^ 32 ∧ num = .finite n

/-- `length` is assigned: the elements beyond it are gone, or holes follow the last one.
Only an integer below `2 ^ 32` is accepted. -/
theorem setArrayLength_spec (hfresh : s.Fresh) (h : Holds s s.array l) (num : Number) :
    Lib.Outcome (setArrayLength pool num) s
      (fun _ s' => ∃ n, IsLength num n ∧
        Holds s' s'.array (l.take n ++ List.replicate (n - l.length) none) ∧ Changes s s')
      (fun e s' => ((¬∃ n, IsLength num n) ∧ e = .engine (.rangeError "Invalid array length") ∧
        s' = s) ∨ Failed s e s') := by
  have hlength := h.length_eq
  unfold setArrayLength
  by_cases hnum : Number.finite (numberToLength num) = num
  · rw [if_neg (by simpa using hnum)]
    set n := numberToLength num with hn
    have hlt : n < 2 ^ 32 := numberToLength_lt num
    refine .bind_ok (getArray_run s) ?_
    by_cases hsize : (0 : ℤ) < (n : ℤ) - s.array.length
    · have hexpand : Lib.Outcome (lengthExpand pool ((n : ℤ) - s.array.length)) s
          (fun _ s' => Changes s s' ∧ s'.array.start + (l.length + (n - l.length)) ≤ s'.array.size ∧
            HoldsHoles s' l (n - l.length)) (Failed s) := by
        unfold lengthExpand
        rw [if_pos hsize, unsigned_of_nonneg (by omega) (by omega),
          show ((n : ℤ) - s.array.length).toNat = n - l.length by omega]
        exact expandInvalid_spec hfresh h le_rfl
      refine .bind (hexpand.mono (fun _ _ h => h) fun e s' h => Or.inr h) ?_
      rintro - s₁ ⟨hchanges, -, hholes⟩
      refine .bind_ok (getArray_run s₁) (.of_ok (setArray_run _ _) ⟨n, ⟨hlt, hnum.symm⟩, ?_,
        hchanges.withArray rfl⟩)
      rw [List.take_of_length_le (by omega)]
      exact hholes.withLength (by omega)
    · have hexpand : (lengthExpand pool ((n : ℤ) - s.array.length)).run s =
          some (.ok (), s) := by
        unfold lengthExpand
        rw [if_neg hsize]
        rfl
      obtain ⟨cells, hfits, hl⟩ := h.fits
      have hroom := hfits.room
      refine .bind_ok hexpand (.bind_ok (getArray_run s) (.of_ok (setArray_run _ _)
        ⟨n, ⟨hlt, hnum.symm⟩, ?_, (Changes.refl hfresh).withArray rfl⟩))
      refine ⟨cells, ⟨hfits.live, hfits.size, ?_, hfits.bound⟩, ?_⟩
      · simp only [State.withArray_array]
        omega
      · simp only [State.withArray_array]
        rw [show n - l.length = 0 by omega, List.replicate_zero, List.append_nil, ← hl]
        simp only [Lib.window, List.take_take]
        congr 1
        omega
  · rw [if_pos hnum]
    refine .throw (Or.inl ⟨?_, rfl, rfl⟩)
    rintro ⟨n, hn, rfl⟩
    exact hnum (by rw [numberToLength_natCast hn])

/-- The list with a value at an index, after holes up to it if it is past the end. -/
def assign (l : List (Option α)) (index : ℕ) (v : α) : List (Option α) :=
  (l ++ List.replicate (index + 1 - l.length) none).set index (some v)

/-- The query for an assignment makes the index one of an element, which is not set yet. -/
theorem arrayPropertyQuerySet_spec (hfresh : s.Fresh) (h : Holds s s.array l) (index : ℕ) :
    Lib.Outcome (arrayPropertyQuerySet pool index) s
      (fun _ s' => Changes s s' ∧ ∃ l', Holds s' s'.array l' ∧ index < l'.length ∧
        ∀ v, l'.set index (some v) = assign l index v)
      (Failed s) := by
  have hlength := h.length_eq
  unfold arrayPropertyQuerySet
  refine .bind_ok (getArray_run s) ?_
  by_cases hindex : s.array.length ≤ index
  · rw [if_pos hindex, ← hlength]
    refine .bind (expandInvalid_spec hfresh h (Nat.le_succ (index - l.length))) ?_
    rintro - s₁ ⟨hchanges, hroom, -, cells, hfits, hl⟩
    have hsize := hfits.size
    have hnew : s₁.array.start + (l.length + (index - l.length)) < cells.length := by
      rw [hsize]
      omega
    have hlast : Lib.window cells s₁.array.start (index + 1) =
        l ++ List.replicate (index - l.length) none ++
          [cells[s₁.array.start + (l.length + (index - l.length))]] := by
      rw [show index + 1 = l.length + (index - l.length) + 1 by omega, ← Lib.window_append, hl]
      congr 1
      exact Lib.window_one hnew
    refine .bind_ok (getArray_run s₁) (.of_ok (setArray_run _ _) ⟨hchanges.withArray rfl, _,
      ⟨cells, ⟨hfits.live, hsize, ?_, hfits.bound⟩, hlast⟩, ?_, fun v => ?_⟩)
    · simp only [State.withArray_array]
      omega
    · simp only [List.length_append, List.length_replicate, List.length_singleton]
      omega
    · unfold assign
      rw [show index + 1 - l.length = index - l.length + 1 by omega, List.replicate_succ',
        ← List.append_assoc, List.set_append_right _ _ (by simp; omega),
        List.set_append_right _ _ (by simp; omega)]
      simp [show index - (l.length + (index - l.length)) = 0 by omega]
  · rw [if_neg hindex]
    refine .pure ⟨.refl hfresh, l, h, by omega, fun v => ?_⟩
    rw [assign, show index + 1 - l.length = 0 by omega, List.replicate_zero, List.append_nil]

/-- A value is assigned to an index. -/
theorem setArrayIndex_spec (hfresh : s.Fresh) (h : Holds s s.array l) (index : ℕ) (v : α) :
    Lib.Outcome (setArrayIndex pool index v) s
      (fun _ s' => Holds s' s'.array (assign l index v) ∧ Changes s s') (Failed s) := by
  unfold setArrayIndex
  refine .bind (arrayPropertyQuerySet_spec hfresh h index) ?_
  rintro - s₁ ⟨hchanges, l', hholds, hindex, hassign⟩
  have hlength := hholds.length_eq
  obtain ⟨cells, hfits, hl⟩ := hholds.fits
  have hsize := hfits.size
  have hroom := hfits.room
  refine .bind_ok (getArray_run s₁) (.of_ok (store_run hfits.live (by omega) (some v)) ⟨?_,
    hchanges.trans ((Changes.refl hchanges.fresh).setBlock (hfits.data_lt hchanges.fresh) _)⟩)
  have hone : index + [some v].length ≤ s₁.array.length := by
    rw [List.length_singleton]
    omega
  refine ⟨_, ⟨State.setBlock_heap_self .., ?_, hroom, hfits.bound⟩, ?_⟩
  · rw [Lib.length_overwrite (by omega)]
    exact hsize
  · rw [State.setBlock_array, Lib.window_overwrite_within hone (by omega), hl]
    rw [Lib.overwrite_singleton hindex, hassign]

/-! ## The constructor -/

end Njs.Array
