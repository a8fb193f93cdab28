import Njs.Array.Refinement

/-!
# Conversions that run code of the script

`splice`, `slice`, `fill` and `copyWithin` read the length of the array, convert their
arguments, which may run functions of the script that change the array, and then use the
length that they read with the block and the length that the array has by then.
-/

namespace Njs.Array

variable {α : Type}

/-! ## The methods -/

/-- `njs_array_prototype_slice_copy` of an array. -/
def sliceCopy (pool : Pool α) (start length : ℤ) : Vm α ArrayObject := do
  let copy ← arrayAlloc pool (unsigned 64 length) spareLength
  let array ← getArray
  copyValues copy.data copy.start array.data (unsigned 64 (array.start + start))
    (unsigned 64 length)
  return copy

/-- An index of `slice` relative to the end of the array if it is negative. -/
def sliceStart (start length : ℤ) : ℤ :=
  if start < 0 then
    if start + length < 0 then 0 else start + length
  else start

/-- The part of an array that `slice` copies: its start and its length. -/
def sliceSpan (start stop length : ℤ) : ℤ × ℤ :=
  let stop := if stop < 0 then stop + length else stop
  if stop ≤ length then
    if stop - start < 0 then (0, 0) else (start, stop - start)
  else (start, length - start)

/-- `end` of `slice` and of the methods below, where `undefined` stands for the length. -/
def convertEnd (stop : Argument α) (length : ℤ) : Vm α ℤ :=
  match stop with
  | .undefined => pure length
  | stop => valueToInteger stop

/-- The first half of `njs_array_prototype_slice` of an array. The end is not converted
where the start is behind the last element. -/
def sliceRange (start stop : Argument α) : Vm α (ℤ × ℤ) := do
  let array ← getArray
  let length : ℤ := array.length
  let start ← valueToInteger start
  let start := sliceStart start length
  if length ≤ start then
    return (0, 0)
  else
    let stop ← convertEnd stop length
    return sliceSpan start stop length

/-- `njs_array_prototype_slice` of an array. -/
def arraySlice (pool : Pool α) (start stop : Argument α) : Vm α ArrayObject := do
  let (start, length) ← sliceRange start stop
  sliceCopy pool start length

/-- `(n < 0) ? njs_max(length + n, 0) : njs_min(n, length)`. -/
def clampIndex (n length : ℤ) : ℤ :=
  if n < 0 then max (length + n) 0 else min n length

/-- The first half of `njs_array_prototype_fill` of an array: `start` and `end`. -/
def fillRange (start stop : Argument α) : Vm α (ℤ × ℤ) := do
  let array ← getArray
  let length : ℤ := array.length
  let start ← valueToInteger start
  let stop ← convertEnd stop length
  return (clampIndex start length, clampIndex stop length)

/-- The loop of `njs_array_prototype_fill` over so many elements. -/
def fillLoop (v : α) (i : ℤ) : ℕ → Vm α Unit
  | 0 => pure ()
  | n + 1 => do
    let array ← getArray
    store array.data (unsigned 64 (array.start + i)) (some v)
    fillLoop v (i + 1) n

/-- `njs_array_prototype_fill` of an array. -/
def arrayFill (v : α) (start stop : Argument α) : Vm α Unit := do
  let (start, stop) ← fillRange start stop
  fillLoop v start (stop - start).toNat

/-- `njs_array_property_query` for a read: the value of an element, if there is one. -/
def arrayPropertyGet (index : ℕ) : Vm α (Option α) := do
  let array ← getArray
  if array.length ≤ index then
    return none
  else
    load array.data (array.start + index)

/-- `njs_value_property_delete` of an array for a key that is an index. -/
def deleteArrayIndex (index : ℕ) : Vm α Unit := do
  let array ← getArray
  if array.length ≤ index then
    return ()
  else
    store array.data (array.start + index) none

/-- The loop of `njs_array_prototype_copy_within` over the elements of the array. -/
def copyElementsLoop (direction dst src : ℤ) : ℕ → Vm α Unit
  | 0 => pure ()
  | n + 1 => do
    let array ← getArray
    let v ← load array.data (unsigned 64 (array.start + src))
    store array.data (unsigned 64 (array.start + dst)) v
    copyElementsLoop direction (dst + direction) (src + direction) n

/-- Assignment or deletion, as the property read before was there or not. -/
def putProperty (pool : Pool α) (index : ℕ) : Option α → Vm α Unit
  | some v => setArrayIndex pool index v
  | none => deleteArrayIndex index

/-- The loop of `njs_array_prototype_copy_within` over the properties of an object. -/
def copyPropertiesLoop (pool : Pool α) (direction dst src : ℤ) : ℕ → Vm α Unit
  | 0 => pure ()
  | n + 1 => do
    let v ← arrayPropertyGet (unsigned 32 src)
    putProperty pool (unsigned 32 dst) v
    copyPropertiesLoop pool direction (dst + direction) (src + direction) n

/-- The first half of `njs_array_prototype_copy_within`: `to`, `from` and `count`. -/
def copyWithinRange (dst src stop : Argument α) : Vm α (ℤ × ℤ × ℤ) := do
  let array ← getArray
  let length : ℤ := array.length
  let dst ← valueToInteger dst
  let dst := clampIndex dst length
  let src ← valueToInteger src
  let src := clampIndex src length
  let stop ← convertEnd stop length
  return (dst, src, min (clampIndex stop length - src) (length - dst))

/-- Where the loop of `njs_array_prototype_copy_within` begins, and its direction. -/
def copyWithinStart (dst src count : ℤ) : ℤ × ℤ × ℤ :=
  if src < dst ∧ src + count ≠ 0 then (-1, dst + count - 1, src + count - 1) else (1, dst, src)

/-- `njs_array_prototype_copy_within` of an array. An array with named properties is
treated as any object. -/
def arrayCopyWithin (pool : Pool α) (dst src stop : Argument α) : Vm α Unit := do
  let (dst, src, count) ← copyWithinRange dst src stop
  let (direction, dst, src) := copyWithinStart dst src count
  let s ← get
  if s.hash.isEmpty then
    copyElementsLoop direction dst src count.toNat
  else
    copyPropertiesLoop pool direction dst src count.toNat

end Njs.Array
