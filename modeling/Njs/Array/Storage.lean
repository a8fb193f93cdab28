import Njs.Result
import Njs.Number
import Njs.Lib.Blocks
import Njs.Lib.Command

/-!
# The storage of arrays

The elements of an `njs_array_t` are the `length` values from `start` on in a block of
`size` values that begins at `data`, so that room is kept on both sides of them. Blocks are
named by the number of the request that made them, and a value that is not there
(`NJS_INVALID`) is `none`.
-/

namespace Njs.Array

variable {α β : Type}

/-- What `NJS_ERROR` leaves in `vm->retval`. -/
inductive Error
  /-- An exception of the engine. -/
  | engine (e : Exception)
  /-- A value thrown by a function of the script. -/
  | user
  deriving DecidableEq

/-- `njs_array_t`, with `start` as an index into the block at `data`. -/
structure ArrayObject where
  data : ℕ
  start : ℕ
  size : ℕ
  length : ℕ
  deriving DecidableEq

/-- The memory, and the array that a function is called on. -/
structure State (α : Type) where
  /-- The values of the blocks that are allocated and not freed. -/
  heap : Lib.Blocks (Option α)
  /-- How many blocks have been requested. -/
  requests : ℕ
  /-- The header of the array. -/
  array : ArrayObject
  /-- The named properties of the array, `object.hash`. -/
  hash : List (List UInt8 × α)

/-- A function of the source that may throw and may change the memory. -/
abbrev Vm (α β : Type) : Type := Lib.Throwing Error (State α) β

/-- What the allocator does: which requests it grants, and the stale contents of the
blocks that it returns. -/
structure Pool (α : Type) where
  grants : ℕ → Bool
  garbage : ℕ → ℕ → Option α

/-- `NJS_ARRAY_MAX_LENGTH`. -/
def maxLength : ℕ := (2 ^ 32 - 1) / 16

/-- `NJS_ARRAY_SPARE`. -/
def spareLength : ℕ := 8

/-- An exception of the engine. -/
def njsThrow (e : Exception) : Vm α β := throw (.engine e)

/-- An access that C leaves undefined. -/
def undefinedBehaviour : Vm α β := ExceptT.lift Lib.fault

/-- `njs_mp_alloc`: a request to the allocator, by its number. -/
def mpAlloc (pool : Pool α) : Vm α ℕ := do
  let s ← get
  set { s with requests := s.requests + 1 }
  if pool.grants s.requests then
    return s.requests
  else
    njsThrow .memoryError

/-- `njs_mp_align` for so many values. -/
def mpAlign (pool : Pool α) (size : ℕ) : Vm α ℕ := do
  let data ← mpAlloc pool
  let cells := (List.range size).map (pool.garbage data)
  modify fun s => { s with heap := Function.update s.heap data (some cells) }
  return data

/-- `njs_mp_free`. -/
def mpFree (data : ℕ) : Vm α Unit := do
  let s ← get
  if (s.heap data).isSome then
    set { s with heap := Function.update s.heap data none }
  else
    undefinedBehaviour

/-- The value at an index of a block. -/
def load (data i : ℕ) : Vm α (Option α) := do
  let s ← get
  match s.heap.read data i with
  | some v => return v
  | none => undefinedBehaviour

/-- Assignment to the value at an index of a block. -/
def store (data i : ℕ) (v : Option α) : Vm α Unit := do
  let s ← get
  match s.heap.write data i v with
  | some heap => set { s with heap := heap }
  | none => undefinedBehaviour

/-- `memmove` of so many values. -/
def memmove (dst dstIndex src srcIndex n : ℕ) : Vm α Unit := do
  let s ← get
  match (s.heap.readAll src srcIndex n).bind fun l => s.heap.writeAll dst dstIndex l with
  | some heap => set { s with heap := heap }
  | none => undefinedBehaviour

/-- The loop of `njs_set_invalid` over so many values. -/
def setInvalid (data i : ℕ) : ℕ → Vm α Unit
  | 0 => pure ()
  | n + 1 => do
    store data i none
    setInvalid data (i + 1) n

/-- The loop that copies so many values, one at a time. -/
def copyValues (dst dstIndex src srcIndex : ℕ) : ℕ → Vm α Unit
  | 0 => pure ()
  | n + 1 => do
    let v ← load src srcIndex
    store dst dstIndex v
    copyValues dst (dstIndex + 1) src (srcIndex + 1) n

/-- The loop that stores the arguments of a call. -/
def storeValues (data i : ℕ) : List α → Vm α Unit
  | [] => pure ()
  | v :: values => do
    store data i (some v)
    storeValues data (i + 1) values

/-- `njs_array_alloc`. -/
def arrayAlloc (pool : Pool α) (length spare : ℕ) : Vm α ArrayObject := do
  if length > 2 ^ 32 - 1 then
    njsThrow (.rangeError "Invalid array length")
  else if length + spare > maxLength then
    njsThrow .memoryError
  else
    let _ ← mpAlloc pool
    let data ← mpAlign pool (length + spare)
    return { data, start := 0, size := length + spare, length }

/-- The size that `njs_array_expand` asks for. -/
def expandedSize (prepend length append : ℕ) : ℕ :=
  let size := prepend + length + append
  if size < 16 then size * 2 else size + size / 2

/-- Whether `njs_array_expand` finds the room that it is asked for. -/
def ArrayObject.hasRoom (array : ArrayObject) (prepend append : ℕ) : Bool :=
  let freeBefore := array.start
  let freeAfter := unsigned 32 (array.size - array.length - freeBefore)
  prepend ≤ freeBefore && append ≤ freeAfter

/-- The `memcpy` of `njs_array_expand`. -/
def copyElements (array : ArrayObject) (data prepend : ℕ) : Vm α Unit :=
  if array.length ≠ 0 then
    memmove data prepend array.data array.start array.length
  else
    pure ()

/-- The end of `njs_array_expand`: the elements move to a new block, where `prepend` values
are free before them. -/
def moveElements (array : ArrayObject) (data prepend size : ℕ) : Vm α ArrayObject := do
  copyElements array data prepend
  mpFree array.data
  return { data, start := prepend, size, length := array.length }

/-- `njs_array_expand`: the header after room for `prepend` values before the elements and
`append` values behind them has been made. -/
def arrayExpand (pool : Pool α) (array : ArrayObject) (prepend append : ℕ) :
    Vm α ArrayObject := do
  if array.hasRoom prepend append then
    return array
  else if expandedSize prepend array.length append > maxLength then
    njsThrow .memoryError
  else
    let data ← mpAlign pool (expandedSize prepend array.length append)
    moveElements array data prepend (expandedSize prepend array.length append)

/-! ## What one access does -/

variable {s : State α} {data i n : ℕ} {cells : List (Option α)}

/-- The state with other values in one block. -/
def State.setBlock (s : State α) (data : ℕ) (cells : List (Option α)) : State α :=
  { s with heap := Function.update s.heap data (some cells) }

@[simp] theorem State.setBlock_heap_self (s : State α) (data : ℕ) (cells : List (Option α)) :
    (s.setBlock data cells).heap data = some cells := by
  simp [State.setBlock]

theorem State.setBlock_heap_of_ne {b : ℕ} (h : b ≠ data) :
    (s.setBlock data cells).heap b = s.heap b := by
  simp [State.setBlock, h]

@[simp] theorem State.setBlock_setBlock (s : State α) (data : ℕ) (cells cells' : List (Option α)) :
    (s.setBlock data cells).setBlock data cells' = s.setBlock data cells' := by
  simp [State.setBlock]

theorem State.setBlock_self (h : s.heap data = some cells) : s.setBlock data cells = s := by
  simp only [State.setBlock, ← h, Function.update_eq_self]

theorem load_run (h : s.heap data = some cells) (hi : i < cells.length) :
    (load data i).run s = some (.ok cells[i], s) := by
  have hread : s.heap.read data i = some cells[i] := by
    rw [Lib.Blocks.read_eq h, List.getElem?_eq_getElem hi]
  change (match s.heap.read data i with
    | some v => (pure v : Vm α (Option α))
    | none => undefinedBehaviour).run s = _
  rw [hread]
  rfl

theorem load_run_none (h : s.heap data = some cells) (hi : cells.length ≤ i) :
    (load data i).run s = none := by
  have hread : s.heap.read data i = none := by
    rw [Lib.Blocks.read_eq h, List.getElem?_eq_none hi]
  change (match s.heap.read data i with
    | some v => (pure v : Vm α (Option α))
    | none => undefinedBehaviour).run s = _
  rw [hread]
  rfl

theorem store_run (h : s.heap data = some cells) (hi : i < cells.length) (v : Option α) :
    (store data i v).run s = some (.ok (), s.setBlock data (Lib.overwrite cells i [v])) := by
  change (match s.heap.write data i v with
    | some heap => (set { s with heap := heap } : Vm α Unit)
    | none => undefinedBehaviour).run s = _
  rw [Lib.Blocks.write_eq h hi]
  rfl

theorem store_run_none (h : s.heap data = some cells) (hi : cells.length ≤ i) (v : Option α) :
    (store data i v).run s = none := by
  have hwrite : s.heap.write data i v = none := by
    refine Lib.Blocks.writeAll_eq_none h ?_
    rw [List.length_singleton]
    omega
  change (match s.heap.write data i v with
    | some heap => (set { s with heap := heap } : Vm α Unit)
    | none => undefinedBehaviour).run s = _
  rw [hwrite]
  rfl

theorem mpFree_run (h : s.heap data = some cells) :
    (mpFree data).run s =
      some (.ok (), { s with heap := Function.update s.heap data none }) := by
  change (if (s.heap data).isSome then
    (set { s with heap := Function.update s.heap data none } : Vm α Unit)
    else undefinedBehaviour).run s = _
  rw [h]
  rfl

theorem memmove_run {dst j : ℕ} {target : List (Option α)} (h : s.heap data = some cells)
    (hi : i + n ≤ cells.length) (hdst : s.heap dst = some target) (hj : j + n ≤ target.length) :
    (memmove dst j data i n).run s =
      some (.ok (), s.setBlock dst (Lib.overwrite target j (Lib.window cells i n))) := by
  have hwrite : ((s.heap.readAll data i n).bind fun l => s.heap.writeAll dst j l) =
      some (Function.update s.heap dst (some (Lib.overwrite target j (Lib.window cells i n)))) := by
    rw [Lib.Blocks.readAll_eq h hi, Option.bind_some,
      Lib.Blocks.writeAll_eq hdst (by rwa [Lib.length_window hi])]
  change (match (s.heap.readAll data i n).bind fun l => s.heap.writeAll dst j l with
    | some heap => (set { s with heap := heap } : Vm α Unit)
    | none => undefinedBehaviour).run s = _
  rw [hwrite]
  rfl

theorem memmove_run_none {dst j : ℕ} (h : s.heap data = some cells)
    (hi : cells.length < i + n) : (memmove dst j data i n).run s = none := by
  change (match (s.heap.readAll data i n).bind fun l => s.heap.writeAll dst j l with
    | some heap => (set { s with heap := heap } : Vm α Unit)
    | none => undefinedBehaviour).run s = _
  rw [Lib.Blocks.readAll_eq_none h hi]
  rfl

/-! ## What the loops do -/

theorem storeValues_run {values : List α} (h : s.heap data = some cells)
    (hi : i + values.length ≤ cells.length) :
    (storeValues data i values).run s =
      some (.ok (), s.setBlock data (Lib.overwrite cells i (values.map some))) := by
  induction values generalizing s i cells with
  | nil =>
    rw [List.map_nil, Lib.overwrite_nil, State.setBlock_self h]
    rfl
  | cons v values ih =>
    rw [List.length_cons] at hi
    have hone : i + [some v].length ≤ cells.length := by
      rw [List.length_singleton]
      omega
    unfold storeValues
    rw [Lib.run_bind_ok (store_run h (by omega) (some v)),
      ih (s.setBlock_heap_self data _) (by rw [Lib.length_overwrite hone]; omega),
      State.setBlock_setBlock, List.map_cons, Lib.overwrite_cons (by rw [List.length_map]; omega)]

theorem setInvalid_run (h : s.heap data = some cells) (hi : i + n ≤ cells.length) :
    (setInvalid data i n).run s =
      some (.ok (), s.setBlock data (Lib.overwrite cells i (List.replicate n none))) := by
  induction n generalizing s i cells with
  | zero =>
    rw [List.replicate_zero, Lib.overwrite_nil, State.setBlock_self h]
    rfl
  | succ n ih =>
    have hone : i + [(none : Option α)].length ≤ cells.length := by
      rw [List.length_singleton]
      omega
    unfold setInvalid
    rw [Lib.run_bind_ok (store_run h (by omega) none),
      ih (s.setBlock_heap_self data _) (by rw [Lib.length_overwrite hone]; omega),
      State.setBlock_setBlock, List.replicate_succ,
      Lib.overwrite_cons (by rw [List.length_replicate]; omega)]

/-- Values of one block are copied to another. -/
theorem copyValues_run {dst j : ℕ} {target : List (Option α)} (h : s.heap data = some cells)
    (hi : i + n ≤ cells.length) (hdst : s.heap dst = some target) (hj : j + n ≤ target.length)
    (hne : data ≠ dst) :
    (copyValues dst j data i n).run s =
      some (.ok (), s.setBlock dst (Lib.overwrite target j (Lib.window cells i n))) := by
  induction n generalizing s i j target with
  | zero =>
    rw [show Lib.window cells i 0 = [] by simp [Lib.window], Lib.overwrite_nil,
      State.setBlock_self hdst]
    rfl
  | succ n ih =>
    have hone : j + [cells[i]].length ≤ target.length := by
      rw [List.length_singleton]
      omega
    have hwindow : Lib.window cells i (n + 1) = [cells[i]] ++ Lib.window cells (i + 1) n := by
      rw [Nat.add_comm n 1, ← Lib.window_append]
      congr 1
      exact Lib.window_one (by omega)
    unfold copyValues
    rw [Lib.run_bind_ok (load_run h (by omega)),
      Lib.run_bind_ok (store_run hdst (by omega) cells[i]),
      ih ((State.setBlock_heap_of_ne hne).trans h) (by omega) (s.setBlock_heap_self dst _)
        (by rw [Lib.length_overwrite hone]; omega),
      State.setBlock_setBlock, hwindow, List.singleton_append,
      Lib.overwrite_cons (by rw [Lib.length_window (by omega)]; omega)]

theorem copyValues_run_none {dst j : ℕ} {target : List (Option α)}
    (h : s.heap data = some cells) (hn : n ≠ 0) (hi : cells.length < i + n)
    (hdst : s.heap dst = some target) (hj : j + n ≤ target.length) (hne : data ≠ dst) :
    (copyValues dst j data i n).run s = none := by
  induction n generalizing s i j target with
  | zero => exact absurd rfl hn
  | succ n ih =>
    unfold copyValues
    rcases Nat.lt_or_ge i cells.length with hlt | hge
    · have hone : j + [cells[i]].length ≤ target.length := by
        rw [List.length_singleton]
        omega
      rw [Lib.run_bind_ok (load_run h hlt),
        Lib.run_bind_ok (store_run hdst (by omega) cells[i])]
      exact ih ((State.setBlock_heap_of_ne hne).trans h) (by omega) (by omega)
        (s.setBlock_heap_self dst _) (by rw [Lib.length_overwrite hone]; omega)
    · exact Lib.run_bind_none (load_run_none h hge)

end Njs.Array
