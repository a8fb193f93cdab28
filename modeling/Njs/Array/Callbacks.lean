import Njs.Array.Conversions
import Njs.Array.Indexes

/-!
# Methods that call functions of the script

`forEach`, `some`, `every`, `filter`, `find`, `map` and `reduce` visit the elements of an
array with `njs_array_iterator`, `lastIndexOf` and `reduceRight` with
`njs_array_reverse_iterator`; `sort` compares and moves them in place. Between two accesses
a function of the script may change the array. An access by way of a pointer into the array
is checked: the run has no outcome if it misses the storage that the array has by then.
-/

namespace Njs.Array

variable {α σ : Type}

/-- What may be accessed of an array: every value of its block, or its elements only. -/
inductive Extent
  | block
  | elements

/-- The index of the block belongs to the array. -/
def Extent.contains : Extent → ArrayObject → ℕ → Bool
  | block, array, i => i < array.size
  | elements, array, i => array.start ≤ i && i < array.start + array.length

/-- The pointer to the value at an index of a block is one into the array. -/
def checkElement (ext : Extent) (data i : ℕ) : Vm α Unit := do
  let array ← getArray
  if data = array.data ∧ ext.contains array i then pure () else undefinedBehaviour

/-- The value that a pointer into the array points to. -/
def loadElement (ext : Extent) (data i : ℕ) : Vm α (Option α) := do
  checkElement ext data i
  load data i

/-- Assignment by way of a pointer into the array. -/
def storeElement (ext : Extent) (data i : ℕ) (v : Option α) : Vm α Unit := do
  checkElement ext data i
  store data i v

/-- What the methods use of the engine. -/
structure Engine (α : Type) where
  extent : Extent
  pool : Pool α
  doubles : Doubles
  qsort : Qsort Key
  undefined : α
  isTrue : Option α → Bool
  strictEqual : α → Option α → Bool

/-- A function that is called for an element and its index. -/
abbrev Callback (α : Type) : Type := α → ℕ → UserCode α (Option α)

/-- What an iterator calls for an entry of the array and its index. It says whether to
stop. -/
abbrev Handler (α σ : Type) : Type := σ → Option α → ℕ → Vm α (σ × Bool)

variable (engine : Engine α)

/-! ## The iterators -/

/-- `(i < njs_array_len(value)) ? njs_array_start(value)[i] : invalid`. -/
def elementAt (ext : Extent) (i : ℕ) : Vm α (Option α) := do
  let array ← getArray
  if i < array.length then
    loadElement ext array.data (array.start + i)
  else
    return none

/-- The loop of `njs_array_iterator` over the elements of an array. -/
def iterateElements (ext : Extent) (handler : Handler α σ) (data : σ) (i : ℕ) :
    ℕ → Vm α (σ × Bool)
  | 0 => pure (data, false)
  | n + 1 => do
    let entry ← elementAt ext i
    let (data, stop) ← handler data entry i
    if stop then
      return (data, true)
    else
      iterateElements ext handler data (i + 1) n

/-- `NJS_ARRAY_MAX_INDEX`. -/
def maxIndex : ℕ := 2 ^ 32 - 1

/-- `njs_value_to_index` of a number. -/
def valueToIndex (num : Number) : ℕ :=
  if .finite num.castUInt32 = num then num.castUInt32 else maxIndex

/-- `njs_value_property` of an array whose properties are values. -/
def arrayProperty (key : Key) : Vm α (Option α) := do
  let index := valueToIndex (engine.doubles.stringToIndex key)
  if index < maxIndex then
    elementAt engine.extent index
  else
    let s ← get
    return s.hash.lookup key

/-- The loop of `njs_object_enumerate_array`. -/
def enumerateElements (ext : Extent) (i : ℕ) : ℕ → Vm α (List Key)
  | 0 => pure []
  | n + 1 => do
    let entry ← elementAt ext i
    let keys ← enumerateElements ext (i + 1) n
    return if entry.isSome then decimal i :: keys else keys

/-- `njs_value_own_enumerate` of an array. -/
def arrayKeys (ext : Extent) : Vm α (List Key) := do
  let array ← getArray
  let keys ← enumerateElements ext 0 array.length
  let s ← get
  return keys ++ s.hash.map Prod.fst

/-- `njs_array_iterator` of an array. -/
def arrayIterator (handler : Handler α σ) (lower upper : ℕ) (data : σ) : Vm α (σ × Bool) := do
  let s ← get
  if s.hash.isEmpty then
    iterateElements engine.extent handler data lower (upper - lower)
  else
    iterateObject engine.doubles engine.qsort (arrayProperty engine) (arrayKeys engine.extent)
      handler lower upper data

/-- The loop of `njs_array_reverse_iterator` over the elements of an array, from the one
before the index down to the first. -/
def reverseIterateElements (ext : Extent) (handler : Handler α σ) (data : σ) :
    ℕ → Vm α (σ × Bool)
  | 0 => pure (data, false)
  | i + 1 => do
    let array ← getArray
    let entry ← loadElement ext array.data (array.start + i)
    let (data, stop) ← handler data entry i
    if stop then
      return (data, true)
    else
      reverseIterateElements ext handler data i

/-- `njs_array_reverse_iterator` of an array, from an index down to 0. -/
def arrayReverseIterator (handler : Handler α σ) (upper : ℕ) (data : σ) :
    Vm α (σ × Bool) := do
  let s ← get
  if s.hash.isEmpty then
    reverseIterateElements engine.extent handler data (upper + 1)
  else
    reverseIterateObject engine.doubles engine.qsort (arrayProperty engine)
      (arrayKeys engine.extent) handler 0 upper data

/-! ## The handlers -/

/-- `njs_array_handler_for_each`. -/
def handlerForEach (callback : Callback α) : Handler α Unit := fun _ entry n =>
  match entry with
  | some v => do
    let _ ← (callback v n).call
    return ((), false)
  | none => return ((), false)

/-- `njs_array_handler_some`. -/
def handlerSome (callback : Callback α) : Handler α Unit := fun _ entry n =>
  match entry with
  | some v => do
    let retval ← (callback v n).call
    return ((), engine.isTrue retval)
  | none => return ((), false)

/-- `njs_array_handler_every`. -/
def handlerEvery (callback : Callback α) : Handler α Unit := fun _ entry n =>
  match entry with
  | some v => do
    let retval ← (callback v n).call
    return ((), !engine.isTrue retval)
  | none => return ((), false)

/-- `njs_array_add`. -/
def arrayAdd (pool : Pool α) (array : ArrayObject) (v : α) : Vm α ArrayObject := do
  let array ← arrayExpand pool array 0 1
  store array.data (array.start + array.length) (some v)
  return { array with length := array.length + 1 }

/-- `njs_array_handler_filter`. The data are the header of the array of results. -/
def handlerFilter (callback : Callback α) : Handler α ArrayObject := fun array entry n =>
  match entry with
  | some copy => do
    let retval ← (callback copy n).call
    if engine.isTrue retval then
      let array ← arrayAdd engine.pool array copy
      return (array, false)
    else
      return (array, false)
  | none => return (array, false)

/-- `njs_array_handler_find`. The data are the value that was found. -/
def handlerFind (callback : Callback α) : Handler α (Option α) := fun found entry n => do
  let copy := entry.getD engine.undefined
  let retval ← (callback copy n).call
  if engine.isTrue retval then
    return (some copy, true)
  else
    return (found, false)

/-- `retval->start[n] = vm->retval`, if the value is valid. -/
def storeResult (array : ArrayObject) (n : ℕ) : Option α → Vm α Unit
  | some v => store array.data (array.start + n) (some v)
  | none => pure ()

/-- `njs_array_handler_map`. The data are the header of the array of results. -/
def handlerMap (callback : Callback α) : Handler α ArrayObject := fun array entry n => do
  store array.data (array.start + n) none
  match entry with
  | some v => do
    let retval ← (callback v n).call
    storeResult array n retval
    return (array, false)
  | none => return (array, false)

/-- A reducer is called for the accumulator, an element and its index. -/
abbrev Reducer (α : Type) : Type := α → α → ℕ → UserCode α (Option α)

/-- `njs_array_handler_reduce`. The data are the accumulator. -/
def handlerReduce (reducer : Reducer α) : Handler α (Option α) := fun accumulator entry n =>
  match entry, accumulator with
  | some v, none => return (some v, false)
  | some v, some accumulator => do
    let retval ← (reducer accumulator v n).call
    return (retval, false)
  | none, accumulator => return (accumulator, false)

/-- `njs_array_handler_index_of`. The data are the index that was found. -/
def handlerIndexOf (v : α) : Handler α (Option ℕ) := fun found entry n =>
  if engine.strictEqual v entry then return (some n, true) else return (found, false)

/-! ## The methods -/

/-- `njs_array_prototype_for_each` of an array. -/
def arrayForEach (callback : Callback α) : Vm α Unit := do
  let array ← getArray
  let _ ← arrayIterator engine (handlerForEach callback) 0 array.length ()
  return ()

/-- `njs_array_prototype_some` of an array. -/
def arraySome (callback : Callback α) : Vm α Bool := do
  let array ← getArray
  let (_, stop) ← arrayIterator engine (handlerSome engine callback) 0 array.length ()
  return stop

/-- `njs_array_prototype_every` of an array. -/
def arrayEvery (callback : Callback α) : Vm α Bool := do
  let array ← getArray
  let (_, stop) ← arrayIterator engine (handlerEvery engine callback) 0 array.length ()
  return !stop

/-- `njs_array_prototype_filter` of an array. -/
def arrayFilter (callback : Callback α) : Vm α ArrayObject := do
  let array ← getArray
  let result ← arrayAlloc engine.pool 0 spareLength
  let (result, _) ← arrayIterator engine (handlerFilter engine callback) 0 array.length result
  return result

/-- `njs_array_prototype_find` of an array. -/
def arrayFind (callback : Callback α) : Vm α (Option α) := do
  let array ← getArray
  let (found, _) ← arrayIterator engine (handlerFind engine callback) 0 array.length none
  return found

/-- The loop of `njs_array_prototype_map` that prepares the results of a long array. -/
def mapPrepare (result : ArrayObject) (length : ℕ) : Vm α Unit :=
  if largeObjectLength < length then setInvalid result.data result.start length else pure ()

/-- The end of `njs_array_prototype_map`: what is behind the end of the array is invalid. -/
def mapFinish (result : ArrayObject) (length : ℕ) : Vm α Unit := do
  let s ← get
  if s.hash.isEmpty then
    setInvalid result.data (result.start + s.array.length) (length - s.array.length)
  else
    pure ()

/-- `njs_array_prototype_map` of an array. -/
def arrayMap (callback : Callback α) : Vm α ArrayObject := do
  let array ← getArray
  let length := array.length
  let result ← arrayAlloc engine.pool length 0
  mapPrepare result length
  if 0 < length then
    let _ ← arrayIterator engine (handlerMap callback) 0 length result
    mapFinish result length
    return result
  else
    return result

/-- The end of `reduce` and `reduceRight`. -/
def reduceResult : Option α → Vm α α
  | some accumulator => pure accumulator
  | none => njsThrow (.typeError "Reduce of empty object with no initial value" [])

/-- `njs_array_prototype_reduce` of an array. -/
def arrayReduce (reducer : Reducer α) (initial : Option α) : Vm α α := do
  let array ← getArray
  let (accumulator, _) ← arrayIterator engine (handlerReduce reducer) 0 array.length initial
  reduceResult accumulator

/-- `njs_array_prototype_reduce_right` of an array. -/
def arrayReduceRight (reducer : Reducer α) (initial : Option α) : Vm α α := do
  let array ← getArray
  if array.length = 0 then
    reduceResult initial
  else
    let (accumulator, _) ←
      arrayReverseIterator engine (handlerReduce reducer) (array.length - 1) initial
    reduceResult accumulator

/-- Where `lastIndexOf` begins, by its second argument and the length of the array. -/
def lastIndexOfStart (start length : ℤ) : Option ℤ :=
  if 0 ≤ start then some (min start (length - 1))
  else if start + length ≤ 0 then none
  else some (start + length)

/-- `from` of `lastIndexOf`, where nothing stands for an argument that is not given. -/
def lastIndexOfFrom (start : Option (Argument α)) (length : ℤ) : Vm α (Option ℤ) := do
  match start with
  | some start => do
    let start ← valueToInteger start
    return lastIndexOfStart start length
  | none => return lastIndexOfStart (length - 1) length

/-- `njs_array_prototype_last_index_of` of an array. -/
def arrayLastIndexOf (v : α) (start : Option (Argument α)) : Vm α (Option ℕ) := do
  let array ← getArray
  if array.length = 0 then
    return none
  else
    let start ← lastIndexOfFrom start array.length
    match start with
    | some start => do
      let (found, _) ← arrayReverseIterator engine (handlerIndexOf engine v) start.toNat none
      return found
    | none => return none

/-! ## `sort` -/

/-- A comparison function. It returns a number, or anything else. -/
abbrev Comparator (α : Type) : Type := α → α → UserCode α (Option Number)

/-- Where `njs_array_prototype_sort` is: at a label, with `n`, at the head of its loop, or
behind a call of the comparison function for the elements at `index - 1` and `index`. Every
point has `current`. -/
inductive SortPoint
  | swap (n current : ℕ)
  | test (n current : ℕ)
  | next (current : ℕ)
  | start (index current : ℕ) (retval : Option Number)
  | done

/-- `njs_number(&retval) <= 0`. -/
def nonPositive : Number → Bool
  | .finite q => q ≤ 0
  | .negInfinity => true
  | .posInfinity => false
  | .nan => false

/-- The part of `njs_array_prototype_sort` from one point to the next. The pointer `start`
is that of the beginning. -/
def sortStep (ext : Extent) (comparator : Comparator α) (data start : ℕ) :
    SortPoint → Vm α SortPoint
  | .start _ _ none => return .done
  | .start index current (some num) =>
    return if nonPositive num then .next current else .swap index current
  | .swap 0 _ => undefinedBehaviour
  | .swap (n + 1) current => do
    let value ← loadElement ext data (start + (n + 1))
    let before ← loadElement ext data (start + n)
    storeElement ext data (start + (n + 1)) before
    storeElement ext data (start + n) value
    return .test n current
  | .test 0 current => return .next current
  | .test (n + 1) current => do
    let second ← loadElement ext data (start + (n + 1))
    match second with
    | some second => do
      let first ← loadElement ext data (start + n)
      match first with
      | some first => do
        let retval ← (comparator first second).call
        return .start (n + 1) current retval
      | none => return .swap (n + 1) current
    | none => return .next current
  | .next current => do
    let array ← getArray
    return if current + 1 < array.length then .test (current + 1) (current + 1) else .done
  | .done => return .done

/-- So many steps of `njs_array_prototype_sort`. -/
def sortSteps (ext : Extent) (comparator : Comparator α) (data start : ℕ) :
    ℕ → Vm α SortPoint
  | 0 => return .start 0 0 (some (.finite 0))
  | k + 1 => do
    let p ← sortSteps ext comparator data start k
    sortStep ext comparator data start p

/-- `njs_array_prototype_sort` of an array, for so many steps. -/
def arraySort (comparator : Comparator α) (k : ℕ) : Vm α SortPoint := do
  let array ← getArray
  if array.length = 0 then
    return .done
  else
    sortSteps engine.extent comparator array.data array.start k

end Njs.Array
