import Njs.Array.Callbacks
import Njs.Array.ConversionSafety
import Njs.Array.Sparse

/-!
# Iteration with callbacks

An entry that `njs_array_iterator` reads is an element of the array as it is at that time,
because the length is read again before each access. What the handlers write is in arrays
that functions of the script do not reach.
-/

namespace Njs.Array

variable {α β σ : Type} {engine : Engine α} {ext : Extent} {s s' : State α}
  {cells : List (Option α)} {p : ArrayObject}

/-! ## Checked accesses -/

theorem Extent.lt_size_of_contains (hfits : Fits s s.array cells) {i : ℕ}
    (h : ext.contains s.array i = true) : i < s.array.size := by
  have hroom := hfits.room
  cases ext with
  | block => simpa [contains] using h
  | elements =>
    simp only [contains, Bool.and_eq_true, decide_eq_true_eq] at h
    omega

/-- The elements of an array are in its storage. -/
theorem Extent.contains_element (hfits : Fits s s.array cells) {i : ℕ}
    (h : i < s.array.length) : ext.contains s.array (s.array.start + i) = true := by
  have hroom := hfits.room
  cases ext with
  | block =>
    simp only [contains, decide_eq_true_eq]
    omega
  | elements =>
    simp only [contains, Bool.and_eq_true, decide_eq_true_eq]
    omega

theorem Extent.contains_of_le {i j : ℕ} (hij : i ≤ j)
    (h : ext.contains s.array (s.array.start + j) = true) :
    ext.contains s.array (s.array.start + i) = true := by
  cases ext with
  | block =>
    simp only [contains, decide_eq_true_eq] at h ⊢
    omega
  | elements =>
    simp only [contains, Bool.and_eq_true, decide_eq_true_eq] at h ⊢
    omega

theorem checkElement_run {i : ℕ} (h : ext.contains s.array i = true) :
    (checkElement ext s.array.data i).run s = some (.ok (), s) := by
  change (if s.array.data = s.array.data ∧ ext.contains s.array i = true then
    (pure () : Vm α Unit) else undefinedBehaviour).run s = _
  rw [if_pos ⟨rfl, h⟩]
  rfl

theorem loadElement_run (hfits : Fits s s.array cells) {i : ℕ}
    (h : ext.contains s.array i = true) :
    ∃ v, s.heap.read s.array.data i = some v ∧
      (loadElement ext s.array.data i).run s = some (.ok v, s) := by
  have hlt : i < cells.length := by
    rw [hfits.size]
    exact Extent.lt_size_of_contains hfits h
  refine ⟨cells[i], ?_, ?_⟩
  · rw [Lib.Blocks.read_eq hfits.live, List.getElem?_eq_getElem hlt]
  · unfold loadElement
    rw [Lib.run_bind_ok (checkElement_run h), load_run hfits.live hlt]

/-- An assignment to the array's storage keeps its header consistent. -/
theorem storeElement_run (hok : s.Ok) {i : ℕ} (h : ext.contains s.array i = true)
    (v : Option α) :
    ∃ s', (storeElement ext s.array.data i v).run s = some (.ok (), s') ∧ s'.Ok ∧
      s'.array = s.array := by
  obtain ⟨cells, hfits⟩ := hok.fits
  have hlt : i < cells.length := by
    rw [hfits.size]
    exact Extent.lt_size_of_contains hfits h
  have hlength : (Lib.overwrite cells i [v]).length = cells.length :=
    Lib.length_overwrite (by rw [List.length_singleton]; omega)
  refine ⟨s.setBlock s.array.data (Lib.overwrite cells i [v]), ?_, ?_, rfl⟩
  · unfold storeElement
    rw [Lib.run_bind_ok (checkElement_run h), store_run hfits.live hlt]
  · exact (hfits.setBlock hlength).ok (Touches.setBlock _ hok.1 (hfits.data_lt hok.1)).fresh

theorem elementAt_run (hok : s.Ok) (i : ℕ) : ∃ v, (elementAt ext i).run s = some (.ok v, s) := by
  obtain ⟨cells, hfits⟩ := hok.fits
  have hrun : (elementAt ext i).run s = (if i < s.array.length then
      loadElement ext s.array.data (s.array.start + i) else pure none).run s :=
    Lib.run_bind_ok (getArray_run s)
  rw [hrun]
  split_ifs with hlt
  · obtain ⟨v, -, hload⟩ := loadElement_run hfits (Extent.contains_element hfits hlt)
    exact ⟨v, hload⟩
  · exact ⟨none, rfl⟩

/-! ## Keys and properties -/

/-- The elements of the array. -/
def State.elements (s : State α) : List (Option α) :=
  Lib.window ((s.heap s.array.data).getD []) s.array.start s.array.length

/-- The names of some elements from an index on, without the holes. -/
def elementKeys (l : List (Option α)) (i : ℕ) : List Key :=
  (l.zipIdx i).filterMap fun p => p.1.map fun _ => decimal p.2

/-- The names of the array's own properties. -/
def State.keys (s : State α) : List Key := elementKeys s.elements 0 ++ s.hash.map Prod.fst

theorem length_elements (hok : s.Ok) : s.elements.length = s.array.length := by
  obtain ⟨cells, hfits⟩ := hok.fits
  unfold State.elements
  rw [hfits.live, Option.getD_some]
  exact Lib.length_window (by rw [hfits.size]; exact hfits.room)

theorem elementAt_run_element (hok : s.Ok) {i : ℕ} (hi : i < s.elements.length) :
    (elementAt ext i).run s = some (.ok s.elements[i], s) := by
  have hlt : i < s.array.length := by rwa [← length_elements hok]
  obtain ⟨cells, hfits⟩ := hok.fits
  obtain ⟨v, hread, hload⟩ := loadElement_run hfits (Extent.contains_element hfits hlt)
  have hrun : (elementAt ext i).run s = (if i < s.array.length then
      loadElement ext s.array.data (s.array.start + i) else pure none).run s :=
    Lib.run_bind_ok (getArray_run s)
  have hv : s.elements[i]? = some v := by
    have hwindow : s.elements = Lib.window cells s.array.start s.array.length := by
      unfold State.elements
      rw [hfits.live, Option.getD_some]
    rw [hwindow, getElem?_of_window rfl hlt, ← hread, Lib.Blocks.read_eq hfits.live]
  rw [List.getElem?_eq_getElem hi] at hv
  rw [hrun, if_pos hlt, hload, Option.some.inj hv]

theorem enumerateElements_run (hok : s.Ok) {i n : ℕ} (hn : i + n = s.elements.length) :
    (enumerateElements ext i n).run s =
      some (.ok (elementKeys (s.elements.drop i) i), s) := by
  induction n generalizing i with
  | zero =>
    rw [List.drop_eq_nil_of_le (by omega)]
    rfl
  | succ n ih =>
    have hlt : i < s.elements.length := by omega
    unfold enumerateElements
    rw [Lib.run_bind_ok (elementAt_run_element hok hlt), Lib.run_bind_ok (ih (by omega)),
      List.drop_eq_getElem_cons hlt]
    unfold elementKeys
    rw [List.zipIdx_cons]
    cases s.elements[i] with
    | none => rfl
    | some v => rfl

theorem arrayKeys_run (hok : s.Ok) : (arrayKeys ext).run s = some (.ok s.keys, s) := by
  have hlength := length_elements hok
  have hkeys := @enumerateElements_run _ ext _ hok 0 s.array.length (by omega)
  unfold arrayKeys
  rw [Lib.run_bind_ok (getArray_run s), Lib.run_bind_ok hkeys]
  rfl

theorem arrayProperty_run (hok : s.Ok) (key : Key) :
    ∃ v, (arrayProperty engine key).run s = some (.ok v, s) := by
  unfold arrayProperty
  simp only
  split_ifs with hindex
  · exact elementAt_run hok _
  · exact ⟨s.hash.lookup key, rfl⟩

/-! ## Arrays of results -/

/-- An array that is not the one that the method is called on, in a block of its own. -/
def Apart (s : State α) (p : ArrayObject) : Prop :=
  (∃ cells, Fits s p cells) ∧ p.data ≠ s.array.data

/-- Functions of the script leave an array alone that they do not reach. -/
theorem Apart.changes (h : Apart s p) (hfresh : s.Fresh) (hchanges : Changes s s') :
    Apart s' p := by
  obtain ⟨⟨cells, hfits⟩, hdata⟩ := h
  have hlt := hfits.data_lt hfresh
  refine ⟨⟨cells, (hchanges.others p.data hlt hdata).trans hfits.live, hfits.size, hfits.room,
    hfits.bound⟩, ?_⟩
  rcases hchanges.data with hsame | hnew
  · rw [hsame]
    exact hdata
  · omega

/-- Values may be written into the array of results. -/
theorem Apart.setBlock (hfits : Fits s p cells) (hdata : p.data ≠ s.array.data) (hok : s.Ok)
    {cells' : List (Option α)} (hcells : cells'.length = cells.length) :
    (s.setBlock p.data cells').Ok ∧ Apart (s.setBlock p.data cells') p := by
  obtain ⟨own, hown⟩ := hok.fits
  refine ⟨?_, ⟨cells', State.setBlock_heap_self .., hcells.trans hfits.size, hfits.room,
    hfits.bound⟩, hdata⟩
  refine Fits.ok ⟨?_, hown.size, hown.room, hown.bound⟩
    (Touches.setBlock _ hok.1 (hfits.data_lt hok.1)).fresh
  exact (State.setBlock_heap_of_ne (Ne.symm hdata)).trans hown.live

/-- One value of the array of results is written. -/
theorem store_apart (hok : s.Ok) (h : Apart s p) {i : ℕ} (hi : i < p.size) (v : Option α) :
    Lib.Outcome (store p.data i v) s (fun _ s' => s'.Ok ∧ Apart s' p) (fun _ s' => s'.Ok) := by
  obtain ⟨⟨cells, hfits⟩, hdata⟩ := h
  have hlt : i < cells.length := by
    rw [hfits.size]
    exact hi
  exact .of_ok (store_run hfits.live hlt v) (Apart.setBlock hfits hdata hok
    (Lib.length_overwrite (by rw [List.length_singleton]; omega)))

theorem setInvalid_apart (hok : s.Ok) (h : Apart s p) {i n : ℕ} (hi : i + n ≤ p.size) :
    Lib.Outcome (setInvalid p.data i n) s (fun _ s' => s'.Ok ∧ Apart s' p)
      (fun _ s' => s'.Ok) := by
  obtain ⟨⟨cells, hfits⟩, hdata⟩ := h
  have hle : i + n ≤ cells.length := by
    rw [hfits.size]
    exact hi
  exact .of_ok (setInvalid_run hfits.live hle) (Apart.setBlock hfits hdata hok
    (Lib.length_overwrite (by rw [List.length_replicate]; omega)))

/-- A step that does not touch the array keeps its header consistent. -/
theorem State.Ok.touches {bs : List ℕ} (hok : s.Ok) (ht : Touches bs s s')
    (hbs : s.array.data ∉ bs) : s'.Ok := by
  obtain ⟨hfresh, l, hholds⟩ := hok
  refine ⟨ht.fresh, l, ?_⟩
  rw [ht.array]
  exact hholds.touches ht hfresh hbs

/-- A value is added to the array of results. -/
theorem arrayAdd_spec {pool : Pool α} (hok : s.Ok) (h : Apart s p) (v : α) :
    Lib.Outcome (arrayAdd pool p v) s (fun p' s' => s'.Ok ∧ Apart s' p')
      (fun _ s' => s'.Ok) := by
  obtain ⟨⟨cells, hfits⟩, hdata⟩ := h
  have hown := hok.fits
  refine .bind ((arrayExpand_spec ⟨cells, hfits, rfl⟩ hok.1).mono (fun _ _ h => h)
    fun e s' h => hok.touches (h.touches hok.1) (by simp)) ?_
  rintro a s₁ ⟨⟨cells₁, hfits₁, -⟩, htouches, hblock, -, -, hroom⟩
  have hok₁ : s₁.Ok := hok.touches htouches (by
    rw [List.mem_singleton]
    exact Ne.symm hdata)
  have hdata₁ : a.data ≠ s₁.array.data := by
    rw [htouches.array]
    rcases hblock with hsame | hnew
    · rw [hsame]
      exact hdata
    · obtain ⟨own, hown⟩ := hown
      have hlt := hown.data_lt hok.1
      omega
  refine .bind (store_apart hok₁ ⟨⟨cells₁, hfits₁⟩, hdata₁⟩ (by omega) (some v)) ?_
  rintro _ s₂ ⟨hok₂, ⟨cells₂, hfits₂⟩, hdata₂⟩
  exact .pure ⟨hok₂, ⟨cells₂, hfits₂.live, hfits₂.size, hroom, hfits₂.bound⟩, hdata₂⟩

/-! ## Iterators -/

theorem UserCode.call_spec (hok : s.Ok) (code : UserCode α β) :
    Lib.Outcome code.call s (fun _ s' => s'.Ok ∧ Changes s s') (fun _ s' => s'.Ok) := by
  have hkeeps := code.keeps s hok
  have hchanges := code.changes s hok
  rcases hrun : code.run s with ⟨e | b, s'⟩
  · rw [hrun] at hkeeps
    exact .of_error (congrArg some hrun) hkeeps
  · rw [hrun] at hkeeps hchanges
    exact .of_ok (congrArg some hrun) ⟨hkeeps, hchanges⟩

/-- A handler keeps what it needs of its data, for the indices of a set. -/
def Handler.Keeps (handler : Handler α σ) (I : σ → State α → Prop) (B : ℕ → Prop) : Prop :=
  ∀ data s entry i, s.Ok → I data s → B i →
    Lib.Outcome (handler data entry i) s (fun r s' => s'.Ok ∧ I r.1 s') (fun _ s' => s'.Ok)

variable {handler : Handler α σ} {I : σ → State α → Prop} {B : ℕ → Prop} {data : σ}

theorem iterateElements_spec (hkeeps : handler.Keeps I B) (hok : s.Ok) (hI : I data s) {i n : ℕ}
    (hB : ∀ j, i ≤ j → j < i + n → B j) :
    Lib.Outcome (iterateElements ext handler data i n) s (fun r s' => s'.Ok ∧ I r.1 s')
      (fun _ s' => s'.Ok) := by
  induction n generalizing s data i with
  | zero => exact .pure ⟨hok, hI⟩
  | succ n ih =>
    obtain ⟨v, hv⟩ := elementAt_run hok i
    refine .bind_ok hv (.bind (hkeeps data s v i hok hI (hB i le_rfl (by omega))) ?_)
    rintro ⟨data', stop⟩ s' ⟨hok', hI'⟩
    cases stop with
    | true => exact .pure ⟨hok', hI'⟩
    | false => exact ih hok' hI' fun j hj hlt => hB j (by omega) (by omega)

theorem visit_spec (hkeeps : handler.Keeps I B) (hok : s.Ok) (hI : I data s)
    {l : List (Key × ℕ)} (hB : ∀ p ∈ l, B p.2) :
    Lib.Outcome (visit (arrayProperty engine) handler data l) s
      (fun r s' => s'.Ok ∧ I r.1 s') (fun _ s' => s'.Ok) := by
  induction l generalizing s data with
  | nil => exact .pure ⟨hok, hI⟩
  | cons q l ih =>
    obtain ⟨key, i⟩ := q
    obtain ⟨v, hv⟩ := arrayProperty_run hok key
    refine .bind_ok hv (.bind (hkeeps data s v i hok hI (hB _ List.mem_cons_self)) ?_)
    rintro ⟨data', stop⟩ s' ⟨hok', hI'⟩
    cases stop with
    | true => exact .pure ⟨hok', hI'⟩
    | false => exact ih hok' hI' fun p hp => hB p (List.mem_cons_of_mem _ hp)

/-- The indices that the sorted keys of a long array give to a handler. -/
def KeysFit (engine : Engine α) (s : State α) (lower upper : ℕ) (B : ℕ → Prop) : Prop :=
  s.hash ≠ [] → largeObjectLength < upper - lower →
    ∀ p ∈ forwardKeys engine.doubles lower upper
      (objectIndexes engine.doubles engine.qsort s.keys), B p.2

/-- `njs_array_iterator` reads elements of the array only. -/
theorem arrayIterator_spec (hkeeps : handler.Keeps I B) (hok : s.Ok) (hI : I data s)
    {lower upper : ℕ} (hle : lower ≤ upper) (hmax : upper < 2 ^ 32) (hB : ∀ i < upper, B i)
    (hfit : KeysFit engine s lower upper B) :
    Lib.Outcome (arrayIterator engine handler lower upper data) s
      (fun r s' => s'.Ok ∧ I r.1 s') (fun _ s' => s'.Ok) := by
  have hlength : unsigned 32 ((upper : ℤ) - lower) = upper - lower := by
    rw [show (upper : ℤ) - lower = ((upper - lower : ℕ) : ℤ) by omega]
    exact unsigned_natCast (by omega)
  have hrun : (arrayIterator engine handler lower upper data).run s =
      (if s.hash.isEmpty then iterateElements engine.extent handler data lower (upper - lower)
        else iterateObject engine.doubles engine.qsort (arrayProperty engine)
          (arrayKeys engine.extent) handler lower upper data).run s := rfl
  refine Lib.Outcome.congr hrun ?_
  by_cases hhash : s.hash.isEmpty
  · rw [if_pos hhash]
    exact iterateElements_spec hkeeps hok hI fun j _ hlt => hB j (by omega)
  · rw [if_neg hhash]
    unfold iterateObject
    rw [hlength]
    split_ifs with hlarge
    · exact .bind_ok (arrayKeys_run hok) (visit_spec hkeeps hok hI
        (hfit (by simpa using hhash) hlarge))
    · refine visit_spec hkeeps hok hI fun p hp => hB p.2 ?_
      obtain ⟨i, hi, rfl⟩ := List.mem_map.mp hp
      rw [List.mem_range'_1] at hi
      simp only
      omega

/-! ## Handlers -/

/-- Handlers without data of their own. -/
theorem Handler.Keeps.of_outcome
    (h : ∀ data s entry i, s.Ok →
      Lib.Outcome (handler data entry i) s (fun _ s' => s'.Ok) (fun _ s' => s'.Ok)) :
    handler.Keeps (fun _ _ => True) (fun _ => True) :=
  fun data s entry i hok _ _ => (h data s entry i hok).mono (fun _ _ h => ⟨h, trivial⟩)
    fun _ _ h => h

theorem call_outcome {γ : Type} (hok : s.Ok) (code : UserCode α β) (f : β → γ) :
    Lib.Outcome (do let b ← code.call; return f b) s (fun _ s' => s'.Ok)
      (fun _ s' => s'.Ok) :=
  .bind (code.call_spec hok) fun _ _ h => .pure h.1

theorem handlerForEach_keeps (callback : Callback α) :
    (handlerForEach callback).Keeps (fun _ _ => True) (fun _ => True) := by
  refine .of_outcome fun _ s entry i hok => ?_
  cases entry with
  | none => exact .pure hok
  | some v => exact call_outcome hok (callback v i) fun _ => ((), false)

theorem handlerSome_keeps (callback : Callback α) :
    (handlerSome engine callback).Keeps (fun _ _ => True) (fun _ => True) := by
  refine .of_outcome fun _ s entry i hok => ?_
  cases entry with
  | none => exact .pure hok
  | some v => exact call_outcome hok (callback v i) fun r => ((), engine.isTrue r)

theorem handlerEvery_keeps (callback : Callback α) :
    (handlerEvery engine callback).Keeps (fun _ _ => True) (fun _ => True) := by
  refine .of_outcome fun _ s entry i hok => ?_
  cases entry with
  | none => exact .pure hok
  | some v => exact call_outcome hok (callback v i) fun r => ((), !engine.isTrue r)

theorem handlerFind_keeps (callback : Callback α) :
    (handlerFind engine callback).Keeps (fun _ _ => True) (fun _ => True) := by
  refine .of_outcome fun found s entry i hok => ?_
  refine .bind ((callback (entry.getD engine.undefined) i).call_spec hok) fun r s' h => ?_
  split_ifs
  · exact .pure h.1
  · exact .pure h.1

theorem handlerReduce_keeps (reducer : Reducer α) :
    (handlerReduce reducer).Keeps (fun _ _ => True) (fun _ => True) := by
  refine .of_outcome fun accumulator s entry i hok => ?_
  rcases entry with - | v
  · exact .pure hok
  · rcases accumulator with - | accumulator
    · exact .pure hok
    · exact call_outcome hok (reducer accumulator v i) fun r => (r, false)

theorem handlerFilter_keeps (callback : Callback α) :
    (handlerFilter engine callback).Keeps (fun p s => Apart s p) (fun _ => True) := by
  intro p s entry i hok hp _
  rcases entry with - | copy
  · exact .pure ⟨hok, hp⟩
  · refine .bind ((callback copy i).call_spec hok) fun r s' ⟨hok', hchanges⟩ => ?_
    have hp' := hp.changes hok.1 hchanges
    split_ifs
    · exact .bind (arrayAdd_spec hok' hp' copy) fun p' s'' h => .pure h
    · exact .pure ⟨hok', hp'⟩

theorem handlerMap_keeps (callback : Callback α) (result : ArrayObject) :
    (handlerMap callback).Keeps (fun p s => p = result ∧ Apart s p)
      (fun i => result.start + i < result.size) := by
  rintro _ s entry i hok ⟨rfl, hp⟩ hi
  refine .bind (store_apart hok hp hi none) fun _ s₁ ⟨hok₁, hp₁⟩ => ?_
  rcases entry with - | v
  · exact .pure ⟨hok₁, rfl, hp₁⟩
  · refine .bind ((callback v i).call_spec hok₁) fun r s₂ ⟨hok₂, hchanges⟩ => ?_
    have hp₂ := hp₁.changes hok₁.1 hchanges
    rcases r with - | w
    · exact .pure ⟨hok₂, rfl, hp₂⟩
    · exact .bind (store_apart hok₂ hp₂ hi (some w)) fun _ s₃ ⟨hok₃, hp₃⟩ =>
        .pure ⟨hok₃, rfl, hp₃⟩

/-! ## Methods with the forward iterator -/

/-- The header of an array has 32-bit fields. -/
theorem State.Ok.length_lt (hok : s.Ok) : s.array.length < 2 ^ 32 := by
  have hle := hok.length_le
  unfold maxLength at hle
  omega

/-- A method that does no more than iterate. -/
theorem arrayIterator_safe (hkeeps : handler.Keeps (fun _ _ => True) (fun _ => True)) (hok : s.Ok)
    (data : σ) :
    Lib.Outcome (arrayIterator engine handler 0 s.array.length data) s (fun _ s' => s'.Ok)
      (fun _ s' => s'.Ok) :=
  (arrayIterator_spec hkeeps hok trivial (Nat.zero_le _) hok.length_lt (fun _ _ => trivial)
    fun _ _ _ _ => trivial).mono (fun _ _ h => h.1) fun _ _ h => h

theorem arrayForEach_safe (hok : s.Ok) (callback : Callback α) :
    Safe (arrayForEach engine callback) s :=
  .bind_ok (getArray_run s) (.bind (arrayIterator_safe (handlerForEach_keeps callback) hok ())
    fun _ _ h => .pure h)

theorem arraySome_safe (hok : s.Ok) (callback : Callback α) :
    Safe (arraySome engine callback) s :=
  .bind_ok (getArray_run s) (.bind (arrayIterator_safe (handlerSome_keeps callback) hok ())
    fun _ _ h => .pure h)

theorem arrayEvery_safe (hok : s.Ok) (callback : Callback α) :
    Safe (arrayEvery engine callback) s :=
  .bind_ok (getArray_run s) (.bind (arrayIterator_safe (handlerEvery_keeps callback) hok ())
    fun _ _ h => .pure h)

theorem arrayFind_safe (hok : s.Ok) (callback : Callback α) :
    Safe (arrayFind engine callback) s :=
  .bind_ok (getArray_run s) (.bind (arrayIterator_safe (handlerFind_keeps callback) hok none)
    fun _ _ h => .pure h)

theorem reduceResult_safe (hok : s.Ok) (accumulator : Option α) :
    Safe (reduceResult accumulator) s := by
  cases accumulator with
  | none => exact .throw hok
  | some v => exact .pure hok

theorem arrayReduce_safe (hok : s.Ok) (reducer : Reducer α) (initial : Option α) :
    Safe (arrayReduce engine reducer initial) s :=
  .bind_ok (getArray_run s) (.bind
    (arrayIterator_safe (handlerReduce_keeps reducer) hok initial)
    fun r _ h => reduceResult_safe h r.1)

/-- The array of results is made before the first call. -/
theorem arrayAlloc_apart (hok : s.Ok) {length : ℕ} (spare : ℕ) :
    Lib.Outcome (arrayAlloc engine.pool length spare) s
      (fun p s' => s'.Ok ∧ Apart s' p ∧ Touches [] s s' ∧ p.start = 0 ∧ p.size = length + spare)
      (fun _ s' => s'.Ok) := by
  obtain ⟨own, hown⟩ := hok.fits
  have hlt := hown.data_lt hok.1
  refine (arrayAlloc_spec hok.1 length spare).mono ?_ ?_
  · rintro p s' ⟨-, hstart, hsize, hnew, -, ⟨l, cells, hfits, -⟩, htouches⟩
    refine ⟨hok.touches htouches (by simp), ⟨⟨cells, hfits⟩, ?_⟩, htouches, hstart, hsize⟩
    rw [htouches.array]
    omega
  · rintro e s' (⟨-, -, rfl⟩ | ⟨-, hrefused⟩)
    · exact hok
    · exact hok.touches (hrefused.touches hok.1) (by simp)

theorem arrayFilter_safe (hok : s.Ok) (callback : Callback α) :
    Safe (arrayFilter engine callback) s := by
  refine .bind_ok (getArray_run s) (.bind (arrayAlloc_apart hok spareLength) ?_)
  rintro p s₁ ⟨hok₁, hp, htouches, -⟩
  refine .bind (arrayIterator_spec (handlerFilter_keeps callback) hok₁ hp (Nat.zero_le _)
    hok.length_lt (fun _ _ => trivial) fun _ _ _ _ => trivial) fun r s₂ h => .pure h.1

/-! ## `map` -/

/-- `map` writes the result for a key of a long array with named properties to the place
that the key has among the sorted keys. The array of results has room for them if the
comparison is consistent and no more keys read as numbers than the array is long. -/
def MapFits (engine : Engine α) (s : State α) : Prop :=
  s.hash = [] ∨ s.array.length ≤ largeObjectLength ∨
    (Consistent (indexesHandler engine.doubles) s.keys ∧
      s.keys.countP (fun key => engine.doubles.stringToIndex key ≠ .nan) ≤ s.array.length)

theorem MapFits.keysFit (h : MapFits engine s) :
    KeysFit engine s 0 s.array.length fun i => i < s.array.length := by
  intro hhash hlarge q hq
  rcases h with hempty | hsmall | ⟨hcons, hcount⟩
  · exact absurd hempty hhash
  · omega
  · obtain ⟨key, i⟩ := q
    have hi := (List.getElem?_eq_some_iff.mp (mem_forwardKeys.mp hq).1).1
    set keys := objectIndexes engine.doubles engine.qsort s.keys with hkeys
    have hnumbers : keys.countP (fun key => engine.doubles.stringToIndex key ≠ .nan) =
        keys.length :=
      List.countP_eq_length.mpr fun key hkey => by
        rw [hkeys] at hkey
        exact List.mem_takeWhile_imp (p := fun key => engine.doubles.stringToIndex key ≠ .nan) hkey
    have hle : keys.countP (fun key => engine.doubles.stringToIndex key ≠ .nan) ≤
        s.keys.countP (fun key => engine.doubles.stringToIndex key ≠ .nan) := by
      rw [← (engine.qsort.perm _ _ hcons).countP_eq]
      exact (List.takeWhile_prefix _).sublist.countP_le
    simp only
    omega

/-- The keys of an array depend on its own block. -/
theorem keys_of_touches {bs : List ℕ} (hok : s.Ok) (ht : Touches bs s s')
    (hbs : s.array.data ∉ bs) : s'.keys = s.keys := by
  obtain ⟨cells, hfits⟩ := hok.fits
  unfold State.keys State.elements
  rw [ht.array, ht.hash, ht.others _ (hfits.data_lt hok.1) hbs]

theorem MapFits.touches {bs : List ℕ} (h : MapFits engine s) (hok : s.Ok) (ht : Touches bs s s')
    (hbs : s.array.data ∉ bs) : MapFits engine s' := by
  unfold MapFits at h ⊢
  rwa [keys_of_touches hok ht hbs, ht.array, ht.hash]

theorem mapPrepare_spec (hok : s.Ok) (hp : Apart s p) {n : ℕ} (hn : p.start + n ≤ p.size) :
    Lib.Outcome (mapPrepare p n) s (fun _ s' => s'.Ok ∧ Apart s' p ∧ Touches [p.data] s s')
      (fun _ s' => s'.Ok) := by
  obtain ⟨⟨cells, hfits⟩, hdata⟩ := hp
  unfold mapPrepare
  split_ifs
  · have hle : p.start + n ≤ cells.length := by
      rw [hfits.size]
      exact hn
    obtain ⟨hok', hp'⟩ := @Apart.setBlock _ _ _ _ hfits hdata hok (Lib.overwrite cells p.start
      (List.replicate n none)) (Lib.length_overwrite (by rw [List.length_replicate]; omega))
    exact .of_ok (setInvalid_run hfits.live hle)
      ⟨hok', hp', Touches.setBlock _ hok.1 (hfits.data_lt hok.1)⟩
  · exact .pure ⟨hok, ⟨⟨cells, hfits⟩, hdata⟩, .refl _ hok.1⟩

theorem mapFinish_spec (hok : s.Ok) (hp : Apart s p) {n : ℕ} (hn : p.start + n ≤ p.size) :
    Lib.Outcome (mapFinish p n) s (fun _ s' => s'.Ok) (fun _ s' => s'.Ok) := by
  have hrun : (mapFinish p n).run s = (if s.hash.isEmpty then
      setInvalid p.data (p.start + s.array.length) (n - s.array.length) else pure ()).run s := rfl
  refine Lib.Outcome.congr hrun ?_
  split_ifs
  · by_cases hle : n ≤ s.array.length
    · rw [Nat.sub_eq_zero_of_le hle]
      exact .pure hok
    · exact (setInvalid_apart hok hp (by omega)).mono (fun _ _ h => h.1) fun _ _ h => h
  · exact .pure hok

theorem arrayMap_safe (hok : s.Ok) (callback : Callback α) (hfits : MapFits engine s) :
    Safe (arrayMap engine callback) s := by
  refine .bind_ok (getArray_run s) (.bind (arrayAlloc_apart hok 0) ?_)
  rintro p s₁ ⟨hok₁, hp₁, ht₁, hstart, hsize⟩
  refine .bind (mapPrepare_spec hok₁ hp₁ (n := s.array.length) (by omega)) ?_
  rintro _ s₂ ⟨hok₂, hp₂, ht₂⟩
  have hown : s₁.array.data ∉ [p.data] := by
    rw [List.mem_singleton]
    exact Ne.symm hp₁.2
  have hfits₂ : MapFits engine s₂ := (hfits.touches hok ht₁ (by simp)).touches hok₁ ht₂ hown
  have harray : s₂.array = s.array := ht₂.array.trans ht₁.array
  split_ifs with hpos
  · have hkeys := hfits₂.keysFit
    rw [harray] at hkeys
    refine .bind (arrayIterator_spec (B := fun i => p.start + i < p.size)
      (handlerMap_keeps callback p) hok₂ ⟨rfl, hp₂⟩ (Nat.zero_le _) hok.length_lt
      (fun i hi => by omega) fun hhash hlarge q hq => ?_) ?_
    · have hlt := hkeys hhash hlarge q hq
      simp only at hlt ⊢
      omega
    · rintro ⟨_, stop⟩ s₃ ⟨hok₃, rfl, hp₃⟩
      exact .bind (mapFinish_spec hok₃ hp₃ (by omega)) fun _ s₄ hok₄ => .pure hok₄
  · exact .pure hok₂

end Njs.Array
