import Njs.Array.CallbackSafety
import Njs.Str.Split

/-!
# Byte strings from arrays

`njs_string_bytes_from_array` converts the elements of an array in place. Functions of the script
may change the array while it does, and an access by way of a pointer that misses the array's
storage by then has no outcome, as for the methods that call functions. Neither has the number of
a value that is none.
-/

namespace Njs.Array

variable {α : Type}

/-- What `njs_value_to_number` makes of a value. -/
inductive Kind
  /-- A value that `njs_is_numeric` holds for, with its number. -/
  | numeric (num : Number)
  /-- A string, with the number of `njs_string_to_number`. -/
  | string (num : Number)
  | object
  /-- A value that is neither primitive nor an object. -/
  | other

/-- The values of the script. -/
structure Script (α : Type) where
  kind : α → Kind
  /-- The functions `valueOf` and `toString` of an object. -/
  method : α → Fin 2 → Option (UserCode α α)
  /-- `njs_set_number`. -/
  ofNumber : Number → α
  kind_ofNumber : ∀ num, kind (ofNumber num) = .numeric num

/-- The kind of a value or a hole. -/
def Script.entryKind (script : Script α) (entry : Option α) : Kind := entry.elim .other script.kind

/-- `njs_number` of a value for which `njs_is_numeric` holds. -/
def Script.number? (script : Script α) (entry : Option α) : Option Number :=
  match script.entryKind entry with
  | .numeric num => some num
  | _ => none

/-- The number of a primitive value. -/
def Script.primitive? (script : Script α) (v : α) : Option Number :=
  match script.kind v with
  | .numeric num | .string num => some num
  | _ => none

/-- The object that a value is. -/
def Script.object? (script : Script α) (entry : Option α) : Option α :=
  match script.entryKind entry with
  | .object => entry
  | _ => none

/-- One try of `njs_value_to_primitive`: the number of what a function returns, if there is the
function and it returns a primitive value. -/
def tryMethod (script : Script α) (v : α) (hint : Fin 2) : Vm α (Option Number) :=
  match script.method v hint with
  | some code => do
    let retval ← code.call
    return script.primitive? retval
  | none => pure none

/-- The exception of `njs_value_to_primitive`. -/
def cannotConvert {β : Type} : Vm α β :=
  njsThrow (.typeError "Cannot convert object to primitive value" [])

/-- The loop of `njs_value_to_primitive` for the value at an index of a block, with the functions
to be tried. The value is read again for each of them. -/
def toPrimitiveLoop (script : Script α) (ext : Extent) (data i : ℕ) : List (Fin 2) → Vm α Number
  | [] => do
    let _ ← loadElement ext data i
    cannotConvert
  | hint :: hints => do
    let entry ← loadElement ext data i
    match script.object? entry with
    | none => cannotConvert
    | some v => do
      let num ← tryMethod script v hint
      match num with
      | some num => return num
      | none => toPrimitiveLoop script ext data i hints

/-- `njs_value_to_number` of the value at an index of a block. -/
def valueToNumber (script : Script α) (ext : Extent) (data i : ℕ) : Vm α Number := do
  let entry ← loadElement ext data i
  match script.entryKind entry with
  | .numeric num | .string num => return num
  | _ => toPrimitiveLoop script ext data i [0, 1]

/-- The loop of `njs_string_bytes_from_array` that converts elements, where `write` is the
assignment. -/
def convertLoop (script : Script α) (ext : Extent) (write : ℕ → ℕ → Option α → Vm α Unit) (i : ℕ) :
    ℕ → Vm α Unit
  | 0 => pure ()
  | n + 1 => do
    let array ← getArray
    let entry ← loadElement ext array.data (array.start + i)
    if (script.number? entry).isSome then convertLoop script ext write (i + 1) n
    else do
      let num ← valueToNumber script ext array.data (array.start + i)
      write array.data (array.start + i) (some (script.ofNumber num))
      convertLoop script ext write (i + 1) n

/-- `(u_char) njs_number_to_uint32(num)`. -/
def octet (num : Number) : UInt8 := UInt8.ofNat (Str.numberToUint32 num)

/-- The loop of `njs_string_bytes_from_array` that fills the string, with a pointer into the
array. -/
def octetLoop (script : Script α) (ext : Extent) (data i : ℕ) : ℕ → Vm α (List UInt8)
  | 0 => pure []
  | n + 1 => do
    let entry ← loadElement ext data i
    match script.number? entry with
    | none => undefinedBehaviour
    | some num => do
      let p ← octetLoop script ext data (i + 1) n
      return octet num :: p

/-- `njs_string_alloc` of a byte string. -/
def allocBytes (pool : Pool α) (size : ℕ) : Vm α Unit :=
  if size > Str.maxLength then njsThrow (.rangeError "invalid string length")
  else if size ≤ Str.shortMax then pure ()
  else do
    let _ ← mpAlloc pool

/-- `njs_string_bytes_from_array` behind the conversions. -/
def fillBytes (script : Script α) (ext : Extent) (pool : Pool α) (length : ℕ) :
    Vm α (List UInt8) := do
  allocBytes pool length
  let array ← getArray
  octetLoop script ext array.data array.start length

/-- `njs_string_bytes_from_array`, where `write` is the assignment to an element. -/
def bytesFromArrayWith (script : Script α) (ext : Extent) (pool : Pool α)
    (write : ℕ → ℕ → Option α → Vm α Unit) : Vm α (List UInt8) := do
  let array ← getArray
  convertLoop script ext write 0 array.length
  fillBytes script ext pool array.length

/-- `njs_string_bytes_from_array`. -/
def bytesFromArray (script : Script α) (ext : Extent) (pool : Pool α) : Vm α (List UInt8) :=
  bytesFromArrayWith script ext pool (storeElement ext)

/-! ## What should hold -/

/-- The pointer to the value at an index of a block is one into the array. -/
def Inside (ext : Extent) (data i : ℕ) (s : State α) : Prop :=
  data = s.array.data ∧ ext.contains s.array i = true

/-- An assignment that has no outcome if it would change the value. -/
def keepElement [DecidableEq α] (ext : Extent) (data i : ℕ) (v : Option α) : Vm α Unit := do
  let entry ← loadElement ext data i
  if entry = v then pure () else undefinedBehaviour

/-- The elements from an index on are converted to numbers and assigned, and no conversion changes
the array. -/
inductive Converted (script : Script α) (ext : Extent) : ℕ → ℕ → State α → List Number → Prop
  | done (i : ℕ) (s : State α) : Converted script ext i 0 s []
  | numeric {i n : ℕ} {s : State α} {entry : Option α} {num : Number} {nums : List Number}
      (hread : s.heap.read s.array.data (s.array.start + i) = some entry)
      (hnum : script.number? entry = some num) (h : Converted script ext (i + 1) n s nums) :
      Converted script ext i (n + 1) s (num :: nums)
  | convert {i n : ℕ} {s s' s'' : State α} {entry : Option α} {num : Number} {nums : List Number}
      (hread : s.heap.read s.array.data (s.array.start + i) = some entry)
      (hnum : script.number? entry = none)
      (hrun : (valueToNumber script ext s.array.data (s.array.start + i)).run s =
        some (.ok num, s'))
      (harray : s'.array = s.array) (hheap : s'.heap s.array.data = s.heap s.array.data)
      (hwrite : (storeElement ext s.array.data (s.array.start + i)
        (some (script.ofNumber num))).run s' = some (.ok (), s''))
      (h : Converted script ext (i + 1) n s'' nums) :
      Converted script ext i (n + 1) s (num :: nums)

/-- A number modulo 256. -/
def modulo256 : Number → UInt8
  | .finite q => UInt8.ofNat (truncate q % 256).toNat
  | _ => 0

/-- Every access is one to the storage that the array has by then, and numbers only are read as
numbers; the call does not change an element; and without changes by the conversions the string
has the numbers of the elements modulo 256. -/
structure Faithful [DecidableEq α] (script : Script α) (ext : Extent) (pool : Pool α)
    (s : State α) : Prop where
  safe : (bytesFromArray script ext pool).run s ≠ none
  frame : ∀ outcome, (bytesFromArray script ext pool).run s = some outcome →
    (bytesFromArrayWith script ext pool (keepElement ext)).run s = some outcome
  bytes : ∀ nums p s', Converted script ext 0 s.array.length s nums →
    (bytesFromArray script ext pool).run s = some (.ok p, s') → p = nums.map modulo256

/-! ## The condition -/

/-- Where a function of the object at an index of a block returns no primitive value, the object's
place is still one of the array. -/
def Stays (script : Script α) (ext : Extent) (data i : ℕ) : List (Fin 2) → State α → Prop
  | [], s => Inside ext data i s
  | hint :: hints, s => Inside ext data i s ∧ ∀ entry v s', s.heap.read data i = some entry →
      script.object? entry = some v → (tryMethod script v hint).run s = some (.ok none, s') →
        Stays script ext data i hints s'

/-- The values from an index of a block on are these numbers. -/
def Numbers (script : Script α) (ext : Extent) (data : ℕ) (s : State α) :
    ℕ → List Number → Prop
  | _, [] => True
  | i, num :: nums => Inside ext data i s ∧
      (∃ entry, s.heap.read data i = some entry ∧ script.number? entry = some num) ∧
      Numbers script ext data s (i + 1) nums

/-- From an index on, every element is a number, or its conversion throws, or the functions that
are called for it leave the very number in its place; and when all are converted, all elements are
numbers. -/
def Kept (script : Script α) (ext : Extent) : ℕ → ℕ → State α → Prop
  | i, 0, s => ∃ nums, nums.length = i ∧ Numbers script ext s.array.data s s.array.start nums
  | i, n + 1, s => Inside ext s.array.data (s.array.start + i) s ∧
      ∀ entry, s.heap.read s.array.data (s.array.start + i) = some entry →
        if (script.number? entry).isSome then Kept script ext (i + 1) n s
        else Stays script ext s.array.data (s.array.start + i) [0, 1] s ∧
          ∀ num s', (valueToNumber script ext s.array.data (s.array.start + i)).run s =
              some (.ok num, s') →
            Inside ext s.array.data (s.array.start + i) s' ∧
              s'.heap.read s.array.data (s.array.start + i) =
                some (some (script.ofNumber num)) ∧ Kept script ext (i + 1) n s'

/-! ## Accesses -/

variable {script : Script α} {ext : Extent} {pool : Pool α} {s s' : State α} {data i n : ℕ}
  {num : Number} {nums : List Number}

theorem loadElement_inside (hok : s.Ok) (h : Inside ext data i s) : ∃ entry,
    s.heap.read data i = some entry ∧ (loadElement ext data i).run s = some (.ok entry, s) := by
  obtain ⟨rfl, hcontains⟩ := h
  obtain ⟨cells, hfits⟩ := hok.fits
  exact loadElement_run hfits hcontains

theorem checkElement_outside (h : ¬Inside ext data i s) :
    (checkElement ext data i : Vm α Unit).run s = none := by
  have hnot : ¬(data = s.array.data ∧ ext.contains s.array i = true) := h
  change (if data = s.array.data ∧ ext.contains s.array i = true then
    (pure () : Vm α Unit) else undefinedBehaviour).run s = _
  rw [if_neg hnot]
  rfl

theorem loadElement_outside (h : ¬Inside ext data i s) :
    (loadElement ext data i).run s = none := Lib.run_bind_none (checkElement_outside h)

/-- An assignment of what is there already changes nothing. -/
theorem storeElement_same (hok : s.Ok) (h : Inside ext data i s) {v : Option α}
    (hread : s.heap.read data i = some v) :
    (storeElement ext data i v).run s = some (.ok (), s) := by
  obtain ⟨rfl, hcontains⟩ := h
  obtain ⟨cells, hfits⟩ := hok.fits
  have hlt : i < cells.length := by
    rw [hfits.size]
    exact Extent.lt_size_of_contains hfits hcontains
  have hcell : cells[i] = v := by
    rw [Lib.Blocks.read_eq hfits.live, List.getElem?_eq_getElem hlt] at hread
    exact Option.some.inj hread
  have hsame : Lib.overwrite cells i [v] = cells := by
    rw [Lib.overwrite_singleton hlt, ← hcell, List.set_getElem_self]
  rw [storeElement, Lib.run_bind_ok (checkElement_run hcontains), store_run hfits.live hlt, hsame,
    State.setBlock_self hfits.live]

theorem keepElement_same [DecidableEq α] (hok : s.Ok) (h : Inside ext data i s) {v : Option α}
    (hread : s.heap.read data i = some v) :
    (keepElement ext data i v).run s = some (.ok (), s) := by
  obtain ⟨entry, hentry, hload⟩ := loadElement_inside hok h
  obtain rfl : entry = v := Option.some.inj (hentry.symm.trans hread)
  rw [keepElement, Lib.run_bind_ok hload, if_pos rfl]
  rfl

/-- Where the assignment is defined that changes nothing, the value is there already. -/
theorem read_of_keepElement [DecidableEq α] (hok : s.Ok) {v : Option α}
    (h : (keepElement ext data i v).run s ≠ none) :
    Inside ext data i s ∧ s.heap.read data i = some v := by
  have hinside : Inside ext data i s := by
    by_contra hout
    exact h (Lib.run_bind_none (loadElement_outside hout))
  obtain ⟨entry, hentry, hload⟩ := loadElement_inside hok hinside
  refine ⟨hinside, ?_⟩
  by_cases hsame : entry = v
  · rwa [← hsame]
  · rw [keepElement, Lib.run_bind_ok hload, if_neg hsame] at h
    exact absurd rfl h

/-! ## Conversions -/

theorem tryMethod_spec (hok : s.Ok) (v : α) (hint : Fin 2) :
    Lib.Outcome (tryMethod script v hint) s (fun _ s' => s'.Ok) (fun _ s' => s'.Ok) := by
  unfold tryMethod
  cases script.method v hint with
  | none => exact .pure hok
  | some code => exact .bind (code.call_spec hok) fun _ _ h => .pure h.1

theorem toPrimitiveLoop_other {entry : Option α} (hint : Fin 2) (hints : List (Fin 2))
    (hload : (loadElement ext data i).run s = some (.ok entry, s))
    (hobject : script.object? entry = none) :
    (toPrimitiveLoop script ext data i (hint :: hints)).run s =
      (cannotConvert : Vm α Number).run s := by
  unfold toPrimitiveLoop
  rw [Lib.run_bind_ok hload, hobject]

theorem toPrimitiveLoop_object {entry : Option α} {v : α} (hint : Fin 2)
    (hints : List (Fin 2)) (hload : (loadElement ext data i).run s = some (.ok entry, s))
    (hobject : script.object? entry = some v) :
    (toPrimitiveLoop script ext data i (hint :: hints)).run s = (do
      let num ← tryMethod script v hint
      match num with
      | some num => return num
      | none => toPrimitiveLoop script ext data i hints : Vm α Number).run s := by
  rw [toPrimitiveLoop, Lib.run_bind_ok hload, hobject]

/-- The tries are defined exactly where the object's place stays one of the array. -/
theorem toPrimitiveLoop_iff (hok : s.Ok) (hints : List (Fin 2)) :
    Lib.Outcome (toPrimitiveLoop script ext data i hints) s (fun _ s' => s'.Ok)
      (fun _ s' => s'.Ok) ∧ Stays script ext data i hints s ∨
    (toPrimitiveLoop script ext data i hints).run s = none ∧ ¬Stays script ext data i hints s := by
  induction hints generalizing s with
  | nil =>
    by_cases hinside : Inside ext data i s
    · obtain ⟨entry, -, hload⟩ := loadElement_inside hok hinside
      exact .inl ⟨.bind_ok hload (.throw hok), hinside⟩
    · exact .inr ⟨Lib.run_bind_none (loadElement_outside hinside), hinside⟩
  | cons hint hints ih =>
    by_cases hinside : Inside ext data i s
    · obtain ⟨entry, hentry, hload⟩ := loadElement_inside hok hinside
      rcases hobject : script.object? entry with - | v
      · have hrun := @toPrimitiveLoop_other _ _ _ _ _ _ _ hint hints hload hobject
        refine .inl ⟨.congr hrun (.throw hok), hinside, fun entry' v s' hread hv _ => ?_⟩
        obtain rfl := Option.some.inj (hentry.symm.trans hread)
        rw [hobject] at hv
        cases hv
      · have hstays : Stays script ext data i (hint :: hints) s ↔
            ∀ s', (tryMethod script v hint).run s = some (.ok none, s') →
              Stays script ext data i hints s' := by
          refine ⟨fun h s' => h.2 entry v s' hentry hobject, fun h => ⟨hinside, ?_⟩⟩
          intro entry' v' s' hread hv
          obtain rfl := Option.some.inj (hentry.symm.trans hread)
          obtain rfl := Option.some.inj (hobject.symm.trans hv)
          exact h s'
        have hrun := @toPrimitiveLoop_object _ _ _ _ _ _ _ _ hint hints hload hobject
        rw [hstays]
        rcases (tryMethod_spec hok v hint).cases with ⟨num, s', htry, hok'⟩ | ⟨e, s', htry, hok'⟩
        · rw [htry]
          replace hrun := hrun.trans (Lib.run_bind_ok htry)
          rcases num with - | num
          · rcases ih hok' with ⟨hout, hrest⟩ | ⟨hnone, hrest⟩
            · refine .inl ⟨.congr hrun hout, fun s'' hs => ?_⟩
              obtain rfl := (Prod.mk.inj (Option.some.inj hs)).2
              exact hrest
            · exact .inr ⟨hrun.trans hnone, fun h => hrest (h s' rfl)⟩
          · refine .inl ⟨.congr hrun (.pure hok'), ?_⟩
            intro s'' hs
            cases hs
        · rw [htry]
          refine .inl ⟨.of_error (hrun.trans (Lib.run_bind_error htry)) hok', ?_⟩
          intro s'' hs
          cases hs
    · exact .inr ⟨Lib.run_bind_none (loadElement_outside hinside), fun h => hinside h.1⟩

/-- A conversion is defined exactly where the object's place stays one of the array. -/
theorem valueToNumber_iff (hok : s.Ok) (hinside : Inside ext data i s)
    (hnum : ∀ entry, s.heap.read data i = some entry → script.number? entry = none) :
    Lib.Outcome (valueToNumber script ext data i) s (fun _ s' => s'.Ok) (fun _ s' => s'.Ok) ∧
        Stays script ext data i [0, 1] s ∨
      (valueToNumber script ext data i).run s = none ∧ ¬Stays script ext data i [0, 1] s := by
  obtain ⟨entry, hentry, hload⟩ := loadElement_inside hok hinside
  have hrun : (valueToNumber script ext data i).run s = (match script.entryKind entry with
      | .numeric num | .string num => return num
      | _ => toPrimitiveLoop script ext data i [0, 1] : Vm α Number).run s :=
    Lib.run_bind_ok hload
  rcases hkind : script.entryKind entry with num | num | - | -
  · have hnone := hnum entry hentry
    simp only [Script.number?, hkind, reduceCtorEq] at hnone
  · rw [hkind] at hrun
    refine .inl ⟨.congr hrun (.pure hok), hinside, fun entry' v s' hread hobject => ?_⟩
    obtain rfl := Option.some.inj (hentry.symm.trans hread)
    simp only [Script.object?, hkind, reduceCtorEq] at hobject
  all_goals
    rw [hkind] at hrun
    rw [hrun]
    exact (toPrimitiveLoop_iff hok [0, 1]).imp_left fun h => ⟨.congr hrun h.1, h.2⟩

/-! ## The loop of conversions -/

section Loop

variable {write : ℕ → ℕ → Option α → Vm α Unit} {entry : Option α}

theorem convertLoop_numeric (hload : (loadElement ext s.array.data (s.array.start + i)).run s =
      some (.ok entry, s)) (hnum : (script.number? entry).isSome) :
    (convertLoop script ext write i (n + 1)).run s =
      (convertLoop script ext write (i + 1) n).run s := by
  rw [convertLoop, Lib.run_bind_ok (getArray_run s), Lib.run_bind_ok hload, if_pos hnum]

theorem convertLoop_convert (hload : (loadElement ext s.array.data (s.array.start + i)).run s =
      some (.ok entry, s)) (hnum : ¬(script.number? entry).isSome) :
    (convertLoop script ext write i (n + 1)).run s = (do
      let num ← valueToNumber script ext s.array.data (s.array.start + i)
      write s.array.data (s.array.start + i) (some (script.ofNumber num))
      convertLoop script ext write (i + 1) n).run s := by
  rw [convertLoop, Lib.run_bind_ok (getArray_run s), Lib.run_bind_ok hload, if_neg hnum]

/-- Where the elements are kept, the assignments change nothing. -/
theorem convertLoop_of_kept [DecidableEq α] (hok : s.Ok) (h : Kept script ext i n s) :
    ∃ r s', (convertLoop script ext (storeElement ext) i n).run s = some (r, s') ∧
      (convertLoop script ext (keepElement ext) i n).run s = some (r, s') ∧ s'.Ok ∧
      (r = .ok () → Kept script ext (i + n) 0 s') := by
  induction n generalizing s i with
  | zero => exact ⟨.ok (), s, rfl, rfl, hok, fun _ => h⟩
  | succ n ih =>
    obtain ⟨hinside, hkept⟩ := h
    obtain ⟨entry, hentry, hload⟩ := loadElement_inside hok hinside
    have hthis := hkept entry hentry
    by_cases hnum : (script.number? entry).isSome
    · rw [if_pos hnum] at hthis
      rw [convertLoop_numeric hload hnum, convertLoop_numeric hload hnum,
        show i + (n + 1) = i + 1 + n by omega]
      exact ih hok hthis
    · rw [if_neg hnum] at hthis
      obtain ⟨hstays, hnumber⟩ := hthis
      rw [convertLoop_convert hload hnum, convertLoop_convert hload hnum]
      have hnone : ∀ entry', s.heap.read s.array.data (s.array.start + i) = some entry' →
          script.number? entry' = none := by
        intro entry' hread
        obtain rfl := Option.some.inj (hentry.symm.trans hread)
        exact Option.not_isSome_iff_eq_none.mp hnum
      rcases valueToNumber_iff hok hinside hnone with ⟨hout, -⟩ | ⟨-, hnot⟩
      · rcases hout.cases with ⟨num, s₁, hrun, hok₁⟩ | ⟨e, s₁, hrun, hok₁⟩
        · obtain ⟨hinside₁, hread₁, hkept₁⟩ := hnumber num s₁ hrun
          rw [Lib.run_bind_ok hrun, Lib.run_bind_ok hrun,
            Lib.run_bind_ok (storeElement_same hok₁ hinside₁ hread₁),
            Lib.run_bind_ok (keepElement_same hok₁ hinside₁ hread₁),
            show i + (n + 1) = i + 1 + n by omega]
          exact ih hok₁ hkept₁
        · refine ⟨.error e, s₁, Lib.run_bind_error hrun, Lib.run_bind_error hrun, hok₁, ?_⟩
          intro he
          cases he
      · exact absurd hstays hnot

/-- The runs of sequences whose first parts run alike are the same. -/
theorem run_bind_congr {β γ : Type} {x y : Vm α β} {f : β → Vm α γ}
    (h : x.run s = y.run s') : (x >>= f).run s = (y >>= f).run s' := by
  change (x.run s).bind _ = (y.run s').bind _
  rw [h]

/-- Where every access is right and no assignment changes a value, the elements are kept. -/
theorem kept_of_convertLoop [DecidableEq α] {β : Type} (rest : Vm α β) (hok : s.Ok)
    (hsafe : (convertLoop script ext (storeElement ext) i n >>= fun _ => rest).run s ≠ none)
    (hframe : ∀ outcome,
      (convertLoop script ext (storeElement ext) i n >>= fun _ => rest).run s = some outcome →
      (convertLoop script ext (keepElement ext) i n >>= fun _ => rest).run s = some outcome)
    (hrest : ∀ s', s'.Ok → rest.run s' ≠ none → Kept script ext (i + n) 0 s') :
    Kept script ext i n s := by
  induction n generalizing s i with
  | zero => exact hrest s hok hsafe
  | succ n ih =>
    have hinside : Inside ext s.array.data (s.array.start + i) s := by
      by_contra hout
      refine hsafe (Lib.run_bind_none ?_)
      rw [convertLoop, Lib.run_bind_ok (getArray_run s)]
      exact Lib.run_bind_none (loadElement_outside hout)
    obtain ⟨entry, hentry, hload⟩ := loadElement_inside hok hinside
    have hnext : i + (n + 1) = i + 1 + n := by omega
    rw [hnext] at hrest
    refine ⟨hinside, fun entry' hread => ?_⟩
    obtain rfl := Option.some.inj (hentry.symm.trans hread)
    by_cases hnum : (script.number? entry).isSome
    · rw [if_pos hnum]
      rw [run_bind_congr (convertLoop_numeric hload hnum)] at hsafe hframe
      rw [run_bind_congr (convertLoop_numeric hload hnum)] at hframe
      exact ih hok hsafe hframe hrest
    · rw [if_neg hnum]
      rw [run_bind_congr (convertLoop_convert hload hnum)] at hsafe hframe
      rw [run_bind_congr (convertLoop_convert hload hnum)] at hframe
      have hnone : ∀ entry', s.heap.read s.array.data (s.array.start + i) = some entry' →
          script.number? entry' = none := by
        intro entry' hread
        obtain rfl := Option.some.inj (hentry.symm.trans hread)
        exact Option.not_isSome_iff_eq_none.mp hnum
      rcases valueToNumber_iff hok hinside hnone with ⟨hout, hstays⟩ | ⟨hundefined, -⟩
      · refine ⟨hstays, fun num s₁ hrun => ?_⟩
        have hok₁ := hout.of_run_ok hrun
        rw [run_bind_congr (Lib.run_bind_ok hrun)] at hsafe hframe
        rw [run_bind_congr (Lib.run_bind_ok hrun)] at hframe
        obtain ⟨outcome, hreal⟩ := Option.ne_none_iff_exists'.mp hsafe
        have hkeep := hframe outcome hreal
        have hdefined : (keepElement ext s.array.data (s.array.start + i)
            (some (script.ofNumber num))).run s₁ ≠ none := by
          intro hnone
          rw [Lib.run_bind_none (Lib.run_bind_none hnone)] at hkeep
          cases hkeep
        obtain ⟨hinside₁, hread₁⟩ := read_of_keepElement hok₁ hdefined
        refine ⟨hinside₁, hread₁, ?_⟩
        rw [run_bind_congr (Lib.run_bind_ok (storeElement_same hok₁ hinside₁ hread₁))]
          at hsafe hframe
        rw [run_bind_congr (Lib.run_bind_ok (keepElement_same hok₁ hinside₁ hread₁))] at hframe
        exact ih hok₁ hsafe hframe hrest
      · exact absurd (Lib.run_bind_none (Lib.run_bind_none hundefined)) hsafe

end Loop

/-! ## The string -/

theorem Numbers.congr (harray : s'.array = s.array) (hheap : s'.heap = s.heap)
    (h : Numbers script ext data s i nums) : Numbers script ext data s' i nums := by
  induction nums generalizing i with
  | nil => trivial
  | cons num nums ih =>
    obtain ⟨hinside, hread, hrest⟩ := h
    unfold Inside at hinside
    rw [← harray] at hinside
    rw [← hheap] at hread
    exact ⟨hinside, hread, ih hrest⟩

theorem octetLoop_run (hok : s.Ok) (h : Numbers script ext data s i nums) :
    (octetLoop script ext data i nums.length).run s = some (.ok (nums.map octet), s) := by
  induction nums generalizing i with
  | nil => rfl
  | cons num nums ih =>
    obtain ⟨hinside, ⟨entry, hread, hnum⟩, hrest⟩ := h
    obtain ⟨entry', hread', hload⟩ := loadElement_inside hok hinside
    obtain rfl := Option.some.inj (hread.symm.trans hread')
    rw [List.length_cons, octetLoop, Lib.run_bind_ok hload, hnum, List.map_cons]
    exact Lib.run_bind_ok (ih hrest)

theorem numbers_of_octetLoop (hok : s.Ok)
    (h : (octetLoop script ext data i n).run s ≠ none) :
    ∃ nums, nums.length = n ∧ Numbers script ext data s i nums := by
  induction n generalizing i with
  | zero => exact ⟨[], rfl, trivial⟩
  | succ n ih =>
    have hinside : Inside ext data i s := by
      by_contra hout
      exact h (Lib.run_bind_none (loadElement_outside hout))
    obtain ⟨entry, hread, hload⟩ := loadElement_inside hok hinside
    rw [octetLoop, Lib.run_bind_ok hload] at h
    rcases hnum : script.number? entry with - | num
    · rw [hnum] at h
      exact absurd rfl h
    · rw [hnum] at h
      have hrest : (octetLoop script ext data (i + 1) n).run s ≠ none :=
        fun hnone => h (Lib.run_bind_none hnone)
      obtain ⟨nums, hlength, hnums⟩ := ih hrest
      refine ⟨num :: nums, ?_, hinside, ⟨entry, hread, hnum⟩, hnums⟩
      rw [List.length_cons, hlength]

/-- The allocation leaves the array as it is. -/
theorem allocBytes_spec (hok : s.Ok) (size : ℕ) :
    Lib.Outcome (allocBytes pool size) s
      (fun _ s' => s'.Ok ∧ s'.array = s.array ∧ s'.heap = s.heap) (fun _ _ => True) := by
  unfold allocBytes
  split_ifs
  · exact .throw trivial
  · exact .pure ⟨hok, rfl, rfl⟩
  · refine .bind ((mpAlloc_spec s).mono (fun _ _ h => h) fun _ _ _ => trivial) ?_
    rintro _ _ ⟨-, rfl⟩
    obtain ⟨cells, hfits⟩ := hok.fits
    have hfits' : Fits { s with requests := s.requests + 1 } s.array cells :=
      ⟨hfits.live, hfits.size, hfits.room, hfits.bound⟩
    exact .pure ⟨hfits'.ok fun b hb => hok.1 b (Nat.le_of_succ_le hb), rfl, rfl⟩

theorem allocBytes_unlimited {size : ℕ} (hsize : size ≤ Str.maxLength) :
    ∃ s', (allocBytes (.unlimited α) size).run s = some (.ok (), s') := by
  unfold allocBytes
  rw [if_neg (by omega)]
  split_ifs
  · exact ⟨s, rfl⟩
  · exact ⟨_, rfl⟩

theorem octet_eq (num : Number) : octet num = modulo256 num := by
  cases num with
  | finite q =>
    have hmod : numberToInt64 q % 256 = truncate q % 256 := by
      have hparts := Int.mul_tdiv_add_tmod (truncate q) 4294967296
      unfold numberToInt64
      split_ifs <;> omega
    have hnat : unsigned 32 (numberToInt64 q) % 256 = (truncate q % 256).toNat := by
      unfold unsigned
      omega
    calc octet (.finite q)
        = UInt8.ofNat (unsigned 32 (numberToInt64 q) % 256) := (UInt8.ofNat_mod_size).symm
      _ = modulo256 (.finite q) := by rw [hnat, modulo256]
  | _ => rfl

theorem fillBytes_spec (hok : s.Ok) (h : Numbers script ext s.array.data s s.array.start nums) :
    Lib.Outcome (fillBytes script ext pool nums.length) s (fun p _ => p = nums.map octet)
      (fun _ _ => True) := by
  refine .bind (allocBytes_spec hok nums.length) ?_
  rintro _ s' ⟨hok', harray, hheap⟩
  have hnums := h.congr harray hheap
  rw [← harray] at hnums
  exact .bind_ok (getArray_run s') (.of_ok (octetLoop_run hok' hnums) rfl)

/-- The second loop reads numbers only, and inside the array, exactly where all elements are
numbers. -/
theorem numbers_of_fillBytes (hok : s.Ok) (hlength : n ≤ Str.maxLength)
    (h : (fillBytes script ext (.unlimited α) n).run s ≠ none) : Kept script ext n 0 s := by
  obtain ⟨s', halloc⟩ := @allocBytes_unlimited α s n hlength
  obtain ⟨hok', harray, hheap⟩ := (allocBytes_spec hok n).of_run_ok halloc
  rw [fillBytes, Lib.run_bind_ok halloc, Lib.run_bind_ok (getArray_run s')] at h
  obtain ⟨nums, hnums, hnumbers⟩ := numbers_of_octetLoop hok' h
  rw [harray] at hnumbers
  exact ⟨nums, hnums, hnumbers.congr harray.symm hheap.symm⟩

/-- Conversions that do not change an array whose elements are kept are those of numbers. -/
theorem Converted.of_kept (hok : s.Ok) (h : Kept script ext i n s)
    (hconverted : Converted script ext i n s nums) :
    nums.length = n ∧ Numbers script ext s.array.data s (s.array.start + i) nums ∧
      ∀ write, (convertLoop script ext write i n).run s = some (.ok (), s) := by
  induction hconverted with
  | done i s => exact ⟨rfl, trivial, fun _ => rfl⟩
  | @numeric i n s entry num nums hread hnum _ ih =>
    obtain ⟨hinside, hkept⟩ := h
    obtain ⟨entry', hread', hload⟩ := loadElement_inside hok hinside
    obtain rfl := Option.some.inj (hread.symm.trans hread')
    have hsome : (script.number? entry).isSome := by rw [hnum]; rfl
    have hthis := hkept entry hread
    rw [if_pos hsome] at hthis
    obtain ⟨hlength, hnumbers, hrun⟩ := ih hok hthis
    rw [← Nat.add_assoc] at hnumbers
    refine ⟨by rw [List.length_cons, hlength], ⟨hinside, ⟨entry, hread, hnum⟩, hnumbers⟩, ?_⟩
    intro write
    rw [convertLoop_numeric hload hsome, hrun write]
  | @convert i n s s₁ s₂ entry num nums hread hnum hrun harray hheap _ _ _ =>
    obtain ⟨hinside, hkept⟩ := h
    have hnone : ¬(script.number? entry).isSome := by rw [hnum]; exact Bool.false_ne_true
    have hthis := hkept entry hread
    rw [if_neg hnone] at hthis
    obtain ⟨-, hread₁, -⟩ := hthis.2 num s₁ hrun
    have hsame : s₁.heap.read s.array.data (s.array.start + i) =
        s.heap.read s.array.data (s.array.start + i) := by
      unfold Lib.Blocks.read
      rw [hheap]
    rw [hsame, hread] at hread₁
    obtain rfl := Option.some.inj hread₁
    simp only [Script.number?, Script.entryKind, Option.elim_some, script.kind_ofNumber,
      reduceCtorEq] at hnum

/-- Where the elements are kept, the call is as it should be. -/
theorem faithful_of_kept [DecidableEq α] (hok : s.Ok)
    (h : Kept script ext 0 s.array.length s) : Faithful script ext pool s := by
  have hstart : ∀ write, (bytesFromArrayWith script ext pool write).run s =
      (convertLoop script ext write 0 s.array.length >>= fun _ =>
        fillBytes script ext pool s.array.length).run s :=
    fun write => Lib.run_bind_ok (getArray_run s)
  refine ⟨?_, ?_, ?_⟩
  · obtain ⟨r, s', hreal, -, hok', hkept⟩ := convertLoop_of_kept hok h
    rw [bytesFromArray, hstart]
    rcases r with e | u
    · rw [Lib.run_bind_error hreal]
      exact Option.some_ne_none _
    · obtain ⟨nums, hlength, hnumbers⟩ := hkept rfl
      rw [Nat.zero_add] at hlength
      rw [Lib.run_bind_ok hreal, ← hlength]
      obtain ⟨_, _, hfill, -⟩ := @fillBytes_spec _ _ _ pool _ _ hok' hnumbers
      rw [hfill]
      exact Option.some_ne_none _
  · intro outcome hrun
    obtain ⟨r, s', hreal, hkeep, -, -⟩ := convertLoop_of_kept hok h
    rw [bytesFromArray, hstart] at hrun
    rw [hstart, run_bind_congr (hkeep.trans hreal.symm)]
    exact hrun
  · intro nums p s' hconverted hrun
    obtain ⟨hlength, hnumbers, hloop⟩ := hconverted.of_kept hok h
    rw [bytesFromArray, hstart, Lib.run_bind_ok (hloop _), ← hlength] at hrun
    rw [(fillBytes_spec hok hnumbers).of_run_ok hrun]
    exact List.map_congr_left fun num _ => octet_eq num

theorem kept_of_faithful [DecidableEq α] (hok : s.Ok)
    (h : Faithful script ext (.unlimited α) s) : Kept script ext 0 s.array.length s := by
  have hstart : ∀ write, (bytesFromArrayWith script ext (.unlimited α) write).run s =
      (convertLoop script ext write 0 s.array.length >>= fun _ =>
        fillBytes script ext (.unlimited α) s.array.length).run s :=
    fun write => Lib.run_bind_ok (getArray_run s)
  have hsafe := h.safe
  have hframe := h.frame
  rw [bytesFromArray, hstart] at hsafe
  simp only [bytesFromArray, hstart] at hframe
  refine kept_of_convertLoop _ hok hsafe hframe fun s' hok' hrest => ?_
  have hlength := hok.length_le
  rw [Nat.zero_add]
  refine numbers_of_fillBytes hok' (hlength.trans ?_) hrest
  decide

/-- The call is safe, leaves the elements as they were and gives the right bytes exactly where the
elements are kept. -/
theorem bytesFromArray_faithful_iff [DecidableEq α] (script : Script α) (ext : Extent)
    (s : State α) (hok : s.Ok) :
    (∀ pool, Faithful script ext pool s) ↔ Kept script ext 0 s.array.length s :=
  ⟨fun h => kept_of_faithful hok (h _), fun h _ => faithful_of_kept hok h⟩

/-- Numbers, and the string `"1"`. -/
def numbersAndOne : Script (Option Number) where
  kind := fun v => v.elim (.string (.finite 1)) .numeric
  method := fun _ _ => none
  ofNumber := some
  kind_ofNumber := fun _ => rfl

/-- The array `[7, 513]`. -/
def sevenAndMore : State (Option Number) where
  heap := fun b => if b = 0 then some [some (some (.finite 7)), some (some (.finite 513))] else none
  requests := 1
  array := { data := 0, start := 0, size := 2, length := 2 }
  hash := []

theorem sevenAndMore_ok : sevenAndMore.Ok := by
  refine ⟨fun b hb => ?_, _, _, ⟨rfl, rfl, by decide, by decide⟩, rfl⟩
  have hpos : 1 ≤ b := hb
  exact if_neg (by omega)

theorem bytesFromArray_faithful_iff_numbers :
    Faithful numbersAndOne .elements (.unlimited _) sevenAndMore := by
  have hkept : Kept numbersAndOne .elements 0 2 sevenAndMore := by
    refine ⟨⟨rfl, rfl⟩, fun entry hread => ?_⟩
    obtain rfl := Option.some.inj hread
    refine ⟨⟨rfl, rfl⟩, fun entry hread => ?_⟩
    obtain rfl := Option.some.inj hread
    exact ⟨[.finite 7, .finite 513], rfl, ⟨rfl, rfl⟩, ⟨_, rfl, rfl⟩, ⟨rfl, rfl⟩, ⟨_, rfl, rfl⟩,
      trivial⟩
  exact (bytesFromArray_faithful_iff numbersAndOne .elements sevenAndMore sevenAndMore_ok).mpr
    hkept _

/-- The array `["1"]`. -/
def stringOne : State (Option Number) where
  heap := fun b => if b = 0 then some [some none] else none
  requests := 1
  array := { data := 0, start := 0, size := 1, length := 1 }
  hash := []

theorem stringOne_ok : stringOne.Ok := by
  refine ⟨fun b hb => ?_, _, _, ⟨rfl, rfl, by decide, by decide⟩, rfl⟩
  have hpos : 1 ≤ b := hb
  exact if_neg (by omega)

/-- `String.bytesFrom(["1"])` puts the number 1 into the array. -/
theorem not_bytesFromArray_faithful :
    ¬∀ (α : Type) (_ : DecidableEq α) (script : Script α) (ext : Extent) (pool : Pool α)
      (s : State α), s.Ok → Faithful script ext pool s := by
  intro h
  have hfaithful := h _ inferInstance numbersAndOne .elements (.unlimited _) stringOne stringOne_ok
  obtain ⟨outcome, hrun⟩ := Option.ne_none_iff_exists'.mp hfaithful.safe
  have hkeep := hfaithful.frame outcome hrun
  have hnone : (bytesFromArrayWith numbersAndOne .elements (.unlimited _)
      (keepElement .elements)).run stringOne = none :=
    Option.isNone_iff_eq_none.mp (by decide +kernel)
  rw [hnone] at hkeep
  cases hkeep

end Njs.Array
