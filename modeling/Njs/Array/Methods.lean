import Njs.Array.Room

/-!
# The methods that change an array

The constructor, `push`, `pop`, `unshift`, `shift`, `splice`, the assignment of `length` and
the query that precedes an assignment to an index, as `njs_array.c` and `njs_value.c` have
them. The conversion of an argument to a number may run a function of the script, which may
change the array.
-/

namespace Njs.Array

variable {α β : Type}

/-- The array's block is live and consistent with its header. -/
def State.Ok (s : State α) : Prop := s.Fresh ∧ ∃ l, Holds s s.array l

/-- The array may have changed, and its block with it; the other blocks are as they were. -/
structure Changes (s s' : State α) : Prop where
  requests : s.requests ≤ s'.requests
  others : ∀ b < s.requests, b ≠ s.array.data → s'.heap b = s.heap b
  data : s'.array.data = s.array.data ∨ s.requests ≤ s'.array.data
  fresh : s'.Fresh

/-- A function of the script. It may do to the array whatever keeps its header consistent,
and it does not reach the blocks that belong to a method in progress. -/
structure UserCode (α β : Type) where
  run : State α → Except Error β × State α
  keeps : ∀ s, s.Ok → (run s).2.Ok
  changes : ∀ s, s.Ok → Changes s (run s).2

/-- `njs_function_apply`. -/
def UserCode.call (code : UserCode α β) : Vm α β := ExceptT.mk fun s => some (code.run s)

/-- An argument that a method converts to a number. -/
inductive Argument (α : Type)
  | undefined
  /-- A primitive value, by the number that it is converted to. -/
  | number (n : Number)
  /-- An object, with the code that `njs_value_to_primitive` runs. -/
  | object (valueOf : UserCode α Number)

/-- `njs_value_to_integer`. -/
def valueToInteger : Argument α → Vm α ℤ
  | .undefined => pure (numberToInteger .nan)
  | .number n => pure (numberToInteger n)
  | .object valueOf => do
    let n ← valueOf.call
    return numberToInteger n

/-- `NJS_MAX_STACK_SIZE`. -/
def maxStackSize : ℕ := 256 * 1024

/-- Arguments of a call: the frame that holds them fits the stack. -/
structure ArgumentList (α : Type) where
  values : List α
  fits : 16 * values.length ≤ maxStackSize

/-- The header of the array. -/
def getArray : Vm α ArrayObject := do
  let s ← get
  return s.array

/-- Assignment to the header of the array. -/
def setArray (a : ArrayObject) : Vm α Unit := modify fun s => { s with array := a }

/-- `njs_array_expand` of the array itself. -/
def expand (pool : Pool α) (prepend append : ℕ) : Vm α Unit := do
  let array ← getArray
  let expanded ← arrayExpand pool array prepend append
  setArray expanded

/-- The loop of `njs_array_prototype_push`. -/
def pushValues : List α → Vm α Unit
  | [] => pure ()
  | v :: values => do
    let array ← getArray
    store array.data (array.start + array.length) (some v)
    setArray { array with length := array.length + 1 }
    pushValues values

/-- `njs_array_prototype_push` of an array. -/
def arrayPush (pool : Pool α) (args : ArgumentList α) : Vm α ℕ := do
  expand pool 0 (args.values.length + 1)
  pushValues args.values
  let array ← getArray
  return array.length

/-- `njs_array_prototype_pop` of an array. -/
def arrayPop : Vm α (Option α) := do
  let array ← getArray
  if array.length ≠ 0 then
    setArray { array with length := array.length - 1 }
    load array.data (array.start + (array.length - 1))
  else
    return none

/-- The loop of `njs_array_prototype_unshift`, over the arguments from the last one. -/
def unshiftValues : List α → Vm α Unit
  | [] => pure ()
  | v :: values => do
    let array ← getArray
    if array.start = 0 then
      undefinedBehaviour
    else
      setArray { array with start := array.start - 1 }
      store array.data (array.start - 1) (some v)
      unshiftValues values

/-- `njs_array_prototype_unshift` of an array. -/
def arrayUnshift (pool : Pool α) (args : ArgumentList α) : Vm α ℕ := do
  let n := args.values.length
  let array ← getArray
  if array.length > 2 ^ 32 - 1 - n then
    njsThrow (.typeError "Invalid length" [])
  else if n ≠ 0 then
    expand pool n 0
    let array ← getArray
    setArray { array with length := array.length + n }
    unshiftValues args.values.reverse
    let array ← getArray
    return array.length
  else
    return array.length

/-- `njs_array_prototype_shift` of an array. -/
def arrayShift : Vm α (Option α) := do
  let array ← getArray
  if array.length ≠ 0 then
    setArray { array with start := array.start + 1, length := array.length - 1 }
    load array.data array.start
  else
    return none

/-- The arguments of `splice`. -/
inductive SpliceArguments (α : Type)
  | none
  | start (start : Argument α)
  | delete (start deleteCount : Argument α) (items : ArgumentList α)

/-- The items of a call of `splice`. -/
def SpliceArguments.items : SpliceArguments α → List α
  | delete _ _ items => items.values
  | _ => []

theorem ArgumentList.length_le (values : ArgumentList α) : values.values.length ≤ 2 ^ 14 := by
  have hstack := values.fits
  unfold maxStackSize at hstack
  omega

theorem SpliceArguments.items_length (args : SpliceArguments α) :
    args.items.length ≤ 2 ^ 14 := by
  rcases args with - | start | ⟨start, deleteCount, items⟩
  · exact Nat.zero_le _
  · exact Nat.zero_le _
  · exact items.length_le

/-- An index of `splice` relative to the end of the array if it is negative. -/
def spliceStart (start length : ℤ) : ℤ :=
  if start < 0 then
    if start + length < 0 then 0 else start + length
  else if length < start then length
  else start

/-- The number of items that `splice` deletes. -/
def spliceDelete (n delete : ℤ) : ℤ :=
  if n < 0 then 0 else if n < delete then n else delete

/-- The first half of `njs_array_prototype_splice`: `start` and `delete`. -/
def spliceRange : SpliceArguments α → Vm α (ℤ × ℤ)
  | .none => pure (0, 0)
  | .start start => do
    let array ← getArray
    let length : ℤ := array.length
    let start ← valueToInteger start
    let start := spliceStart start length
    return (start, length - start)
  | .delete start deleteCount _ => do
    let array ← getArray
    let length : ℤ := array.length
    let start ← valueToInteger start
    let start := spliceStart start length
    let n ← valueToInteger deleteCount
    return (start, spliceDelete n (length - start))

/-- The expansion of `njs_array_prototype_splice`. -/
def spliceExpand (pool : Pool α) (delta : ℤ) : Vm α Unit :=
  if 0 < delta then expand pool 0 (unsigned 32 delta) else pure ()

/-- The relocation of `njs_array_prototype_splice`: the elements behind the deleted ones
move. -/
def spliceRelocate (pool : Pool α) (start delete items : ℤ) : Vm α Unit := do
  let delta := items - delete
  if delta ≠ 0 then
    spliceExpand pool delta
    let array ← getArray
    memmove array.data (unsigned 64 (array.start + (start + items)))
      array.data (unsigned 64 (array.start + (start + delete)))
      (unsigned 64 ((array.length - (start + delete)) * 16) / 16)
    setArray { array with length := unsigned 32 (array.length + delta) }

/-- The second half of `njs_array_prototype_splice`: the array of the deleted items. -/
def spliceItems (pool : Pool α) (start delete : ℤ) (items : List α) : Vm α ArrayObject := do
  let deleted ← arrayAlloc pool (unsigned 64 delete) 0
  let array ← getArray
  copyValues deleted.data deleted.start array.data (unsigned 64 (array.start + start))
    (unsigned 64 delete)
  spliceRelocate pool start delete items.length
  let array ← getArray
  storeValues array.data (unsigned 64 (array.start + start)) items
  return deleted

/-- `njs_array_prototype_splice` of an array. -/
def arraySplice (pool : Pool α) (args : SpliceArguments α) : Vm α ArrayObject := do
  let (start, delete) ← spliceRange args
  spliceItems pool start delete args.items

/-- An expansion, and the loop that makes holes of the `size` values behind the elements. -/
def expandInvalid (pool : Pool α) (append size : ℕ) : Vm α Unit := do
  expand pool 0 append
  let array ← getArray
  setInvalid array.data (array.start + array.length) size

/-- The expansion of `njs_array_length`. -/
def lengthExpand (pool : Pool α) (size : ℤ) : Vm α Unit :=
  if 0 < size then expandInvalid pool (unsigned 32 size) size.toNat else pure ()

/-- `njs_array_length`, where `length` is assigned a number. -/
def setArrayLength (pool : Pool α) (num : Number) : Vm α Unit := do
  let length := numberToLength num
  if .finite length ≠ num then
    njsThrow (.rangeError "Invalid array length")
  else
    let array ← getArray
    lengthExpand pool (length - array.length)
    let array ← getArray
    setArray { array with length := length }

/-- `njs_array_property_query` for an assignment: after it, `index` is the index of an
element. -/
def arrayPropertyQuerySet (pool : Pool α) (index : ℕ) : Vm α Unit := do
  let array ← getArray
  if array.length ≤ index then
    expandInvalid pool (index - array.length + 1) (index - array.length)
    let array ← getArray
    setArray { array with length := index + 1 }

/-- `njs_value_property_set` of an array for a key that is an index: the value is stored
through the reference that the query returns. -/
def setArrayIndex (pool : Pool α) (index : ℕ) (setval : α) : Vm α Unit := do
  arrayPropertyQuerySet pool index
  let array ← getArray
  store array.data (array.start + index) (some setval)

/-! ## The header and the block -/

variable {pool : Pool α} {s s' s'' : State α} {a : ArrayObject} {cells : List (Option α)}
  {l l' : List (Option α)}

/-- The state with another header of the array. -/
def State.withArray (s : State α) (a : ArrayObject) : State α := { s with array := a }

@[simp] theorem State.withArray_array (s : State α) (a : ArrayObject) :
    (s.withArray a).array = a := rfl

@[simp] theorem State.withArray_heap (s : State α) (a : ArrayObject) :
    (s.withArray a).heap = s.heap := rfl

@[simp] theorem State.setBlock_array (s : State α) (data : ℕ) (cells : List (Option α)) :
    (s.setBlock data cells).array = s.array := rfl

theorem getArray_run (s : State α) : getArray.run s = some (.ok s.array, s) := rfl

theorem setArray_run (s : State α) (a : ArrayObject) :
    (setArray a).run s = some (.ok (), s.withArray a) := rfl

theorem Changes.refl (hfresh : s.Fresh) : Changes s s :=
  ⟨le_rfl, fun _ _ _ => rfl, Or.inl rfl, hfresh⟩

theorem Changes.trans (h : Changes s s') (h' : Changes s' s'') : Changes s s'' where
  requests := Nat.le_trans h.requests h'.requests
  others := by
    intro b hb hne
    have hne' : b ≠ s'.array.data := by
      rcases h.data with heq | hge
      · rwa [heq]
      · omega
    exact (h'.others b (Nat.lt_of_lt_of_le hb h.requests) hne').trans (h.others b hb hne)
  data := by
    have hle := h.requests
    rcases h.data with heq | hge <;> rcases h'.data with heq' | hge' <;> omega
  fresh := h'.fresh

/-- The array's header may be replaced by one with the same block. -/
theorem Changes.withArray (h : Changes s s') (ha : a.data = s'.array.data) :
    Changes s (s'.withArray a) :=
  ⟨h.requests, h.others, by simpa [ha] using h.data, h.fresh⟩

/-- The array's block may be written. -/
theorem Changes.setBlock (h : Changes s s') (hlt : s'.array.data < s'.requests)
    (cells : List (Option α)) : Changes s (s'.setBlock s'.array.data cells) where
  requests := h.requests
  others := by
    intro b hb hne
    have hne' : b ≠ s'.array.data := by
      rcases h.data with heq | hge
      · rwa [heq]
      · omega
    exact (State.setBlock_heap_of_ne hne').trans (h.others b hb hne)
  data := h.data
  fresh := (Touches.setBlock cells h.fresh hlt).fresh

/-- A step that touches other blocks only. -/
theorem Touches.changes {bs : List ℕ} (h : Touches bs s s')
    (hbs : ∀ b ∈ bs, b = s.array.data ∨ s.requests ≤ b) : Changes s s' where
  requests := h.requests
  others := by
    intro b hb hne
    refine h.others b hb fun hmem => ?_
    rcases hbs b hmem with heq | hge
    · exact hne heq
    · omega
  data := Or.inl (by rw [h.array])
  fresh := h.fresh

/-- A failed step leaves the array and its block as they are. -/
structure Unchanged (s s' : State α) : Prop where
  array : s'.array = s.array
  block : s'.heap s.array.data = s.heap s.array.data
  changes : Changes s s'

/-- An allocation was refused, and the array is as it was. -/
def Failed (s : State α) (e : Error) (s' : State α) : Prop :=
  e = .engine .memoryError ∧ Unchanged s s'

theorem Unchanged.refl (hfresh : s.Fresh) : Unchanged s s := ⟨rfl, rfl, .refl hfresh⟩

theorem Unchanged.trans (h : Unchanged s s') (h' : Unchanged s' s'') : Unchanged s s'' where
  array := h'.array.trans h.array
  block := by
    rw [← h.block, ← h.array]
    exact h'.block
  changes := h.changes.trans h'.changes

theorem Unchanged.holds (h : Unchanged s s') (hl : Holds s s.array l) : Holds s' s'.array l := by
  rw [h.array]
  exact hl.of_heap_eq h.block

/-- A step that does not touch the array's block leaves the array as it is. -/
theorem Touches.unchanged {bs : List ℕ} (h : Touches bs s s') (hlt : s.array.data < s.requests)
    (hbs : ∀ b ∈ bs, s.requests ≤ b) : Unchanged s s' where
  array := h.array
  block := h.others _ hlt fun hmem => by
    have hge := hbs _ hmem
    omega
  changes := h.changes fun b hb => Or.inr (hbs b hb)

theorem Refused.failed {e : Error} {tooLong : Prop} (h : Refused pool tooLong s e s')
    (hfresh : s.Fresh) : Failed s e s' := by
  refine ⟨h.1, ?_⟩
  have ht := h.touches hfresh
  obtain ⟨-, ⟨n, rfl⟩, -⟩ := h
  exact ⟨rfl, rfl, ht.changes (by simp)⟩

/-- `njs_array_expand` of the array itself keeps its elements and makes the room. -/
theorem expand_spec {p q : ℕ} (hfresh : s.Fresh) (h : Holds s s.array l) :
    Lib.Outcome (expand pool p q) s
      (fun _ s' => Holds s' s'.array l ∧ Changes s s' ∧ s'.array.length = s.array.length ∧
        p ≤ s'.array.start ∧ s'.array.start + s'.array.length + q ≤ s'.array.size)
      (Failed s) := by
  unfold expand
  refine .bind_ok (getArray_run s) (.bind ((arrayExpand_spec h hfresh).mono (fun _ _ h => h)
    fun e s' h => h.failed hfresh) ?_)
  rintro a s' ⟨hholds, htouches, hdata, hlength, hstart, hroom⟩
  refine .of_ok (setArray_run s' a) ⟨hholds.of_heap_eq rfl, ⟨htouches.requests, ?_, hdata,
    htouches.fresh⟩,
    hlength, hstart, hroom⟩
  intro b hb hne
  exact htouches.others b hb (by simpa using hne)

end Njs.Array
