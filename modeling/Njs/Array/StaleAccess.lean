import Njs.Array.CallbackSafety

/-!
# Indices and pointers that outlive a call

`njs_array_reverse_iterator` counts down from an index without a look at the length, and
`sort` keeps the pointer to the first element. Both go on as they were when a function of
the script returns. They are safe where the function leaves the elements there that they
use next.
-/

namespace Njs.Array

variable {α σ : Type} {engine : Engine α} {ext : Extent} {s s' : State α}

/-! ## The reverse iterator -/

/-- Whenever the iteration goes on after the call for an index, the array has the element
before it. -/
def ReverseKeeps (ext : Extent) (handler : Handler α σ) : ℕ → σ → State α → Prop
  | 0, _, _ => True
  | i + 1, data, s => ∀ entry data' s',
      s.heap.read s.array.data (s.array.start + i) = some entry →
      (handler data entry i).run s = some (.ok (data', false), s') →
      (i ≠ 0 → ext.contains s'.array (s'.array.start + (i - 1)) = true) ∧
        ReverseKeeps ext handler i data' s'

variable {handler : Handler α σ} {data : σ}

/-- Without the element there is no outcome. -/
theorem loadElement_run_none {i : ℕ} (h : ext.contains s.array i ≠ true) :
    (loadElement ext s.array.data i).run s = none := by
  have hcheck : (checkElement ext s.array.data i).run s = none := by
    change (if s.array.data = s.array.data ∧ ext.contains s.array i = true then
      (pure () : Vm α Unit) else undefinedBehaviour).run s = _
    rw [if_neg fun hboth => h hboth.2]
    rfl
  exact Lib.run_bind_none hcheck

/-- The loop is safe exactly if every element that it visits is there. -/
theorem reverseIterateElements_safe_iff
    (hkeeps : handler.Keeps (fun _ _ => True) (fun _ => True)) (hok : s.Ok) {n : ℕ} :
    Safe (reverseIterateElements ext handler data n) s ↔
      (n ≠ 0 → ext.contains s.array (s.array.start + (n - 1)) = true) ∧
        ReverseKeeps ext handler n data s := by
  induction n generalizing s data with
  | zero => exact ⟨fun _ => ⟨fun h => absurd rfl h, trivial⟩, fun _ => .pure hok⟩
  | succ i ih =>
    rw [reverseIterateElements, safe_bind_ok_iff (getArray_run s), Nat.add_sub_cancel]
    by_cases hthere : ext.contains s.array (s.array.start + i) = true
    · obtain ⟨cells, hfits⟩ := hok.fits
      obtain ⟨entry, hread, hload⟩ := loadElement_run hfits hthere
      rw [safe_bind_ok_iff hload, safe_bind_iff ((hkeeps data s entry i hok trivial trivial).mono
        (fun _ _ h => h) fun _ _ h => h)]
      have hnext := (hkeeps data s entry i hok trivial trivial)
      constructor
      · intro h
        refine ⟨fun _ => hthere, fun entry' data' s' hread' hrun => ?_⟩
        obtain rfl : entry = entry' := Option.some.inj (hread.symm.trans hread')
        exact (ih (hnext.of_run_ok hrun).1).mp (h _ s' hrun)
      · rintro ⟨-, h⟩ ⟨data', stop⟩ s' hrun
        have hok' := (hnext.of_run_ok hrun).1
        cases stop with
        | true => exact .pure hok'
        | false => exact (ih hok').mpr (h entry data' s' hread hrun)
    · constructor
      · intro h
        exact absurd h (not_safe_of_none (Lib.run_bind_none (loadElement_run_none hthere)))
      · intro h
        exact absurd (h.1 (Nat.succ_ne_zero i)) hthere

/-- A handler that does not change the array leaves every element there. -/
theorem ReverseKeeps.of_unchanged
    (hsame : ∀ data entry i s data' s',
      (handler data entry i).run s = some (.ok (data', false), s') → s' = s)
    {n : ℕ} (hthere : n ≠ 0 → ext.contains s.array (s.array.start + (n - 1)) = true) :
    ReverseKeeps ext handler n data s := by
  induction n generalizing data with
  | zero => trivial
  | succ i ih =>
    intro entry data' s' hread hrun
    obtain rfl := hsame data entry i s data' s' hrun
    have hbelow : i ≠ 0 → ext.contains s'.array (s'.array.start + (i - 1)) = true :=
      fun _ => Extent.contains_of_le (by omega) (hthere (Nat.succ_ne_zero i))
    exact ⟨hbelow, ih hbelow⟩

/-- By way of the keys of the array, every access is checked. -/
theorem arrayReverseIterator_safe (hkeeps : handler.Keeps (fun _ _ => True) (fun _ => True))
    (hok : s.Ok) {upper : ℕ}
    (hfirst : s.hash = [] →
      engine.extent.contains s.array (s.array.start + upper) = true ∧
        ReverseKeeps engine.extent handler (upper + 1) data s) :
    Safe (arrayReverseIterator engine handler upper data) s := by
  have hrun : (arrayReverseIterator engine handler upper data).run s =
      (if s.hash.isEmpty then reverseIterateElements engine.extent handler data (upper + 1)
        else reverseIterateObject engine.doubles engine.qsort (arrayProperty engine)
          (arrayKeys engine.extent) handler 0 upper data).run s := rfl
  refine Lib.Outcome.congr hrun ?_
  by_cases hhash : s.hash.isEmpty
  · rw [if_pos hhash]
    obtain ⟨hthere, hrest⟩ := hfirst (by simpa using hhash)
    exact (reverseIterateElements_safe_iff hkeeps hok).mpr ⟨fun _ => hthere, hrest⟩
  · rw [if_neg hhash]
    have hvisit : ∀ l, Lib.Outcome (visit (arrayProperty engine) handler data l) s
        (fun _ s' => s'.Ok) (fun _ s' => s'.Ok) := fun l =>
      (visit_spec hkeeps hok trivial fun _ _ => trivial).mono (fun _ _ h => h.1) fun _ _ h => h
    unfold reverseIterateObject
    split_ifs
    · exact .bind_ok (arrayKeys_run hok) (hvisit _)
    · exact hvisit _

theorem arrayReduceRight_safe (hok : s.Ok) (reducer : Reducer α) (initial : Option α)
    (hreducer : s.hash = [] →
      ReverseKeeps engine.extent (handlerReduce reducer) s.array.length initial s) :
    Safe (arrayReduceRight engine reducer initial) s := by
  refine .bind_ok (getArray_run s) ?_
  split_ifs with hzero
  · exact reduceResult_safe hok initial
  · have hlast : s.array.length - 1 + 1 = s.array.length := by omega
    refine .bind (arrayReverseIterator_safe (handlerReduce_keeps reducer) hok fun hhash =>
      ⟨?_, ?_⟩) fun r s' h => reduceResult_safe h r.1
    · obtain ⟨cells, hfits⟩ := hok.fits
      exact Extent.contains_element hfits (by omega)
    · rw [hlast]
      exact hreducer hhash

theorem handlerIndexOf_run (v : α) (found : Option ℕ) (entry : Option α) (i : ℕ) (s : State α) :
    ∃ r, (handlerIndexOf engine v found entry i).run s = some (.ok r, s) := by
  unfold handlerIndexOf
  split_ifs
  · exact ⟨_, rfl⟩
  · exact ⟨_, rfl⟩

theorem handlerIndexOf_keeps (v : α) :
    (handlerIndexOf engine v).Keeps (fun _ _ => True) (fun _ => True) := by
  refine .of_outcome fun found s entry i hok => ?_
  obtain ⟨r, hrun⟩ := handlerIndexOf_run v found entry i s
  exact .of_ok hrun hok

theorem lastIndexOfFrom_spec (hok : s.Ok) (start : Option (Argument α)) (length : ℤ) :
    Lib.Outcome (lastIndexOfFrom start length) s (fun _ s' => s'.Ok) (fun _ s' => s'.Ok) := by
  rcases start with - | start
  · exact .pure hok
  · exact .bind (valueToInteger_spec hok start) fun _ _ h => .pure h

theorem arrayLastIndexOf_safe (hok : s.Ok) (v : α) (start : Option (Argument α))
    (hstart : s.array.length ≠ 0 → ∀ i s',
      (lastIndexOfFrom start s.array.length).run s = some (.ok (some i), s') → s'.hash = [] →
        engine.extent.contains s'.array (s'.array.start + i.toNat) = true) :
    Safe (arrayLastIndexOf engine v start) s := by
  refine .bind_ok (getArray_run s) ?_
  split_ifs with hzero
  · exact .pure hok
  · rcases (lastIndexOfFrom_spec hok start s.array.length).cases with
      ⟨r, s', hrun, hok'⟩ | ⟨e, s', hrun, hok'⟩
    · refine .bind_ok hrun ?_
      rcases r with - | i
      · exact .pure hok'
      · refine .bind (arrayReverseIterator_safe (handlerIndexOf_keeps v) hok' fun hhash => ?_)
          fun r s'' h => .pure h
        have hthere := hstart hzero i s' hrun hhash
        refine ⟨hthere, .of_unchanged (fun data entry i s data' s' hcall => ?_)
          fun _ => hthere⟩
        obtain ⟨r, hsame⟩ := handlerIndexOf_run v data entry i s
        rw [hsame] at hcall
        exact (Prod.mk.inj (Option.some.inj hcall)).2.symm
    · exact .of_error (Lib.run_bind_error hrun) hok'

/-! ## `sort` -/

/-- The loop is over. -/
def SortPoint.Ended : SortPoint → Prop
  | .start _ _ none => True
  | .done => True
  | _ => False

/-- The indices that the loop may use before the length is read again. -/
def SortPoint.Reaches : SortPoint → ℕ → Prop
  | .swap n _, i => i ≤ n
  | .test n _, i => i ≤ n
  | .start index _ (some num), i => nonPositive num = false ∧ i ≤ index
  | _, _ => False

/-- The elements that the loop uses, by its pointer, up to these indices and up to the
array's length are in the storage of the array. -/
def SortPoint.Fits (ext : Extent) (data start : ℕ) (s : State α) (p : SortPoint) : Prop :=
  ¬p.Ended → s.array.data = data ∧
    ∀ i, i < s.array.length ∨ p.Reaches i → ext.contains s.array (start + i) = true

/-- There is an element before the one to be exchanged. -/
def SortPoint.Positive : SortPoint → Prop
  | .swap n _ => n ≠ 0
  | .start index _ (some num) => nonPositive num = false → index ≠ 0
  | _ => True

/-- No call of the comparison function after which the loop goes on replaces the block of
the array or takes the elements away that the loop uses next. -/
def SortKeeps (ext : Extent) (comparator : Comparator α) (s : State α) : Prop :=
  ∀ k index current num s',
    (sortSteps ext comparator s.array.data s.array.start k).run s =
        some (.ok (.start index current (some num)), s') →
      s'.array.data = s.array.data ∧
        ∀ i, i < s'.array.length ∨ nonPositive num = false ∧ i ≤ index →
          ext.contains s'.array (s.array.start + i) = true

variable {data start : ℕ} {comparator : Comparator α}

/-- Two elements are exchanged. -/
theorem swap_spec (hok : s.Ok) {n current : ℕ}
    (hfits : (SortPoint.swap (n + 1) current).Fits ext data start s) :
    Lib.Outcome (sortStep ext comparator data start (.swap (n + 1) current)) s
      (fun p s' => s'.Ok ∧ p.Positive ∧ p.Fits ext data start s') (fun _ s' => s'.Ok) := by
  obtain ⟨rfl, hthere⟩ := hfits id
  have hupper := hthere (n + 1) (Or.inr le_rfl)
  have hlower := hthere n (Or.inr (Nat.le_succ n))
  obtain ⟨cells, hcells⟩ := hok.fits
  obtain ⟨value, -, hvalue⟩ := loadElement_run hcells hupper
  obtain ⟨before, -, hbefore⟩ := loadElement_run hcells hlower
  obtain ⟨s₁, hrun₁, hok₁, harray₁⟩ := storeElement_run hok hupper before
  rw [← harray₁] at hlower
  obtain ⟨s₂, hrun₂, hok₂, harray₂⟩ := storeElement_run hok₁ hlower value
  rw [harray₁] at hrun₂
  refine .bind_ok hvalue (.bind_ok hbefore (.bind_ok hrun₁ (.bind_ok hrun₂ (.pure ⟨hok₂, trivial,
    fun _ => ⟨by rw [harray₂, harray₁], fun i hi => ?_⟩⟩))))
  rw [harray₂, harray₁] at hi ⊢
  exact hthere i (hi.imp_right Nat.le_succ_of_le)

/-- Two elements are compared, if both are there. What the comparison function does is left
to it. -/
theorem test_spec (hok : s.Ok) {n current : ℕ}
    (hfits : (SortPoint.test (n + 1) current).Fits ext data start s) :
    Lib.Outcome (sortStep ext comparator data start (.test (n + 1) current)) s
      (fun p s' => s'.Ok ∧ p.Positive ∧
        ((∃ index current retval, p = .start index current retval) ∨ p.Fits ext data start s'))
      (fun _ s' => s'.Ok) := by
  obtain ⟨rfl, hthere⟩ := hfits id
  obtain ⟨cells, hcells⟩ := hok.fits
  obtain ⟨second, -, hsecond⟩ := loadElement_run hcells (hthere (n + 1) (Or.inr le_rfl))
  obtain ⟨first, -, hfirst⟩ := loadElement_run hcells (hthere n (Or.inr (Nat.le_succ n)))
  refine .bind_ok hsecond ?_
  rcases second with - | second
  · exact .pure ⟨hok, trivial, Or.inr fun _ =>
      ⟨rfl, fun i hi => hthere i (Or.inl (hi.resolve_right id))⟩⟩
  · refine .bind_ok hfirst ?_
    rcases first with - | first
    · exact .pure ⟨hok, Nat.succ_ne_zero n, Or.inr fun _ => ⟨rfl, hthere⟩⟩
    · refine .bind ((comparator first second).call_spec hok) fun retval s' h => .pure ⟨h.1, ?_,
        Or.inl ⟨_, _, _, rfl⟩⟩
      cases retval with
      | none => trivial
      | some num => exact fun _ => Nat.succ_ne_zero n

/-- One step of the loop. -/
theorem sortStep_spec (hok : s.Ok) {p : SortPoint} (hpos : p.Positive)
    (hfits : p.Fits ext data start s) :
    Lib.Outcome (sortStep ext comparator data start p) s
      (fun p s' => s'.Ok ∧ p.Positive ∧
        ((∃ index current retval, p = .start index current retval) ∨ p.Fits ext data start s'))
      (fun _ s' => s'.Ok) := by
  match p with
  | .start _ _ none => exact .pure ⟨hok, trivial, Or.inr fun h => absurd trivial h⟩
  | .start index current (some num) =>
    obtain ⟨hdata, hthere⟩ := hfits id
    by_cases hnum : nonPositive num = true
    · refine .pure ?_
      rw [if_pos hnum]
      exact ⟨hok, trivial, Or.inr fun _ =>
        ⟨hdata, fun i hi => hthere i (Or.inl (hi.resolve_right id))⟩⟩
    · have hfalse : nonPositive num = false := by simpa using hnum
      refine .pure ?_
      rw [if_neg hnum]
      exact ⟨hok, hpos hfalse, Or.inr fun _ =>
        ⟨hdata, fun i hi => hthere i (hi.imp_right fun hle => ⟨hfalse, hle⟩)⟩⟩
  | .swap 0 _ => exact absurd rfl hpos
  | .swap (n + 1) current =>
    exact (swap_spec hok hfits).mono (fun _ _ h => ⟨h.1, h.2.1, Or.inr h.2.2⟩) fun _ _ h => h
  | .test 0 current =>
    obtain ⟨hdata, hthere⟩ := hfits id
    exact .pure ⟨hok, trivial, Or.inr fun _ =>
      ⟨hdata, fun i hi => hthere i (Or.inl (hi.resolve_right id))⟩⟩
  | .test (n + 1) current => exact test_spec hok hfits
  | .next current =>
    obtain ⟨hdata, hthere⟩ := hfits id
    refine .bind_ok (getArray_run s) (.pure ?_)
    split_ifs with hlt
    · refine ⟨hok, trivial, Or.inr fun _ => ⟨hdata, fun i hi => hthere i (Or.inl ?_)⟩⟩
      rcases hi with hi | hi
      · exact hi
      · exact Nat.lt_of_le_of_lt hi hlt
    · exact ⟨hok, trivial, Or.inr fun h => absurd trivial h⟩
  | .done => exact .pure ⟨hok, trivial, Or.inr fun h => absurd trivial h⟩

/-- Any number of steps. -/
theorem sortSteps_spec (hok : s.Ok) (hkeeps : SortKeeps ext comparator s) (k : ℕ) :
    Lib.Outcome (sortSteps ext comparator s.array.data s.array.start k) s
      (fun p s' => s'.Ok ∧ p.Positive ∧ p.Fits ext s.array.data s.array.start s')
      (fun _ s' => s'.Ok) := by
  induction k with
  | zero =>
    obtain ⟨cells, hcells⟩ := hok.fits
    refine .pure ⟨hok, fun h => ?_, fun _ => ⟨rfl, fun i hi => ?_⟩⟩
    · exact absurd h (by decide)
    · rcases hi with hi | ⟨hi, -⟩
      · exact Extent.contains_element hcells hi
      · exact absurd hi (by decide)
  | succ k ih =>
    rcases ih.cases with ⟨p, s₁, hrun, hok₁, hpos, hfits⟩ | ⟨e, s₁, hrun, hok₁⟩
    · rcases (sortStep_spec hok₁ hpos hfits).cases with
        ⟨p', s₂, hstep, hok₂, hpos₂, hnext⟩ | ⟨e, s₂, hstep, hok₂⟩
      · have hsteps : (sortSteps ext comparator s.array.data s.array.start (k + 1)).run s =
            some (.ok p', s₂) := (Lib.run_bind_ok hrun).trans hstep
        refine .of_ok hsteps ⟨hok₂, hpos₂, ?_⟩
        rcases hnext with ⟨index, current, retval, rfl⟩ | hfits₂
        · rcases retval with - | num
          · exact fun h => absurd trivial h
          · exact fun _ => hkeeps (k + 1) index current num s₂ hsteps
        · exact hfits₂
      · exact .of_error ((Lib.run_bind_ok hrun).trans hstep) hok₂
    · exact .of_error (Lib.run_bind_error hrun) hok₁

theorem arraySort_safe (hok : s.Ok) (hkeeps : SortKeeps engine.extent comparator s) (k : ℕ) :
    Safe (arraySort engine comparator k) s := by
  refine .bind_ok (getArray_run s) ?_
  split_ifs
  · exact .pure hok
  · exact (sortSteps_spec hok hkeeps k).mono (fun _ _ h => h.1) fun _ _ h => h

/-! ## The methods together -/

/-- A call of one of the methods. -/
inductive CallbackCall (α : Type)
  | forEach (callback : Callback α)
  | some (callback : Callback α)
  | every (callback : Callback α)
  | filter (callback : Callback α)
  | find (callback : Callback α)
  | map (callback : Callback α)
  | reduce (reducer : Reducer α) (initial : Option α)
  | reduceRight (reducer : Reducer α) (initial : Option α)
  | lastIndexOf (v : α) (start : Option (Argument α))
  | sort (comparator : Comparator α)

/-- The call is safe. That of `sort` need not end: it is safe if any number of its steps
is. -/
def CallbackCall.Safe (engine : Engine α) (s : State α) : CallbackCall α → Prop
  | forEach callback => Array.Safe (arrayForEach engine callback) s
  | some callback => Array.Safe (arraySome engine callback) s
  | every callback => Array.Safe (arrayEvery engine callback) s
  | filter callback => Array.Safe (arrayFilter engine callback) s
  | find callback => Array.Safe (arrayFind engine callback) s
  | map callback => Array.Safe (arrayMap engine callback) s
  | reduce reducer initial => Array.Safe (arrayReduce engine reducer initial) s
  | reduceRight reducer initial => Array.Safe (arrayReduceRight engine reducer initial) s
  | lastIndexOf v start => Array.Safe (arrayLastIndexOf engine v start) s
  | sort comparator => ∀ k, Array.Safe (arraySort engine comparator k) s

/-- The functions of the script leave there what the call uses next. -/
def CallbackCall.Keeps (engine : Engine α) (s : State α) : CallbackCall α → Prop
  | map _ => MapFits engine s
  | reduceRight reducer initial => s.hash = [] →
      ReverseKeeps engine.extent (handlerReduce reducer) s.array.length initial s
  | lastIndexOf _ start => s.array.length ≠ 0 → ∀ i s',
      (lastIndexOfFrom start s.array.length).run s = Option.some (.ok (Option.some i), s') →
        s'.hash = [] → engine.extent.contains s'.array (s'.array.start + i.toNat) = true
  | sort comparator => SortKeeps engine.extent comparator s
  | _ => True

/-- Every access of the methods by way of a pointer into the array is to the storage that
the array has by then, if the functions of the script leave it there. -/
theorem callbacks_safe (engine : Engine α) (s : OkState α) (call : CallbackCall α)
    (h : call.Keeps engine s.state) : call.Safe engine s.state := by
  cases call with
  | forEach callback => exact arrayForEach_safe s.ok callback
  | some callback => exact arraySome_safe s.ok callback
  | every callback => exact arrayEvery_safe s.ok callback
  | filter callback => exact arrayFilter_safe s.ok callback
  | find callback => exact arrayFind_safe s.ok callback
  | map callback => exact arrayMap_safe s.ok callback h
  | reduce reducer initial => exact arrayReduce_safe s.ok reducer initial
  | reduceRight reducer initial => exact arrayReduceRight_safe s.ok reducer initial h
  | lastIndexOf v start => exact arrayLastIndexOf_safe s.ok v start h
  | sort comparator => exact fun k => arraySort_safe s.ok h k

/-- An engine for arrays of numbers, by which only elements may be accessed. -/
def numbers : Engine ℕ where
  extent := .elements
  pool := .unlimited ℕ
  doubles := .unrounded
  qsort := .insertion Key
  undefined := 0
  isTrue retval := retval.getD 0 ≠ 0
  strictEqual v entry := entry = some v

/-- The reducer `(a, b) => a + b`. -/
def addition : Reducer ℕ := fun accumulator v _ =>
  .ofOps (.unlimited ℕ) [] (some (accumulator + v))

theorem handlerReduce_addition_run (data entry : Option ℕ) (i : ℕ) (s s' : State ℕ)
    (data' : Option ℕ)
    (hrun : (handlerReduce addition data entry i).run s = some (.ok (data', false), s')) :
    s' = s := by
  rcases entry with - | v
  · exact (Prod.mk.inj (Option.some.inj hrun)).2.symm
  · rcases data with - | accumulator
    · exact (Prod.mk.inj (Option.some.inj hrun)).2.symm
    · exact (Prod.mk.inj (Option.some.inj hrun)).2.symm

/-- `[1, 2, 3].reduceRight((a, b) => a + b)`. -/
theorem callbacks_safe_addition :
    (CallbackCall.reduceRight addition none).Safe numbers oneTwoThree :=
  callbacks_safe numbers ⟨oneTwoThree, oneTwoThree_ok⟩ (.reduceRight addition none) fun _ =>
    .of_unchanged (fun data entry i s data' s' hrun =>
      handlerReduce_addition_run data entry i s s' data' hrun) fun _ => rfl

/-- `a.sort(function() { a.push(0); return 1 })` for `a` of `[1, 2, 3]` moves elements in the
block that the first call has made `push` free. -/
theorem not_callbacks_safe :
    ¬∀ (engine : Engine ℕ) (s : State ℕ), s.Ok → ∀ call : CallbackCall ℕ, call.Safe engine s := by
  intro h
  let comparator : Comparator ℕ := fun _ _ =>
    .ofOps (.unlimited ℕ) [.push ⟨[0], by decide⟩] (some (.finite 1))
  have hnone : (arraySort numbers comparator 5).run oneTwoThree = none :=
    Option.isNone_iff_eq_none.mp (by decide)
  exact not_safe_of_none hnone (h numbers oneTwoThree oneTwoThree_ok (.sort comparator) 5)

end Njs.Array
