import Mathlib.Data.List.Range
import Njs.Functions.Frames

/-!
# `call()`, `apply()` and `bind()`

A function is to be entered in the same way however its arguments are given. The three ways lead
to frames that differ only in how much room there is behind the arguments.
-/

namespace Njs.Functions

open Njs.Objects (Value)

variable {space : Space} {f : Lambda} {t : Argument} {a : List Argument} {frame : Frame}
  {entry : Entry} {e : Failure} {p callee : ℕ}

/-- A hole is `undefined`. -/
def filled (v : Argument) : Argument := some (v.getD .undefined)

/-- The value of a parameter. -/
def parameter (f : Lambda) (a : List Argument) (i : ℕ) : Slot :=
  if f.restParameters = true ∧ i + 1 = f.nargs then .rest ((a.drop i).map filled)
  else .value (filled ((a[i]?).getD none))

/-- What a function is to see that is called with a `this` value and some arguments. -/
def called (f : Lambda) (t : Argument) (a : List Argument) : Entry where
  this := .value t
  parameters := (List.range f.nargs).map (parameter f a)
  length := a.length
  arguments := a.map fun v => .value (filled v)

/-- There is no space for a frame, or no memory for an object. -/
def Refused (result : Except Failure Entry) : Prop :=
  result = .error stackExceeded ∨ result = .error (.exception .memoryError)

/-- The function is entered as it should be, if there is space for it. -/
def Enters (f : Lambda) (t : Argument) (a : List Argument) (result : Except Failure Entry) : Prop :=
  result = .ok (called f t a) ∨ Refused result

/-- The rest parameter is put at the place of an argument. -/
def Overwrites (f : Lambda) (a : List Argument) : Prop :=
  f.restParameters = true ∧ f.nargs ≤ a.length

/-! ## Reading a frame -/

theorem readValues_eq {α : Type} {values : List α} {i k : ℕ} (h : i + k ≤ values.length) :
    readValues values i k = .ok ((values.drop i).take k) := by
  induction k generalizing i with
  | zero => rfl
  | succ k ih =>
    have hi : i < values.length := by omega
    rw [readValues, List.getElem?_eq_getElem hi, ih (by omega), List.drop_eq_getElem_cons hi]
    rfl

theorem readValues_error {α : Type} {values : List α} {i k : ℕ}
    (h : readValues values i k = .error e) : e = .fault := by
  induction k generalizing i with
  | zero => cases h
  | succ k ih =>
    rw [readValues] at h
    cases hvalue : values[i]? with
    | none =>
      rw [hvalue] at h
      cases h
      rfl
    | some x =>
      rw [hvalue] at h
      cases hrest : readValues values (i + 1) k with
      | error e' =>
        simp only [hrest] at h
        cases h
        exact ih hrest
      | ok l =>
        simp only [hrest] at h
        cases h

theorem bind_ok {α β : Type} {x : Except Failure α} {g : α → Except Failure β} {b : β}
    (h : x >>= g = .ok b) : ∃ c, x = .ok c ∧ g c = .ok b := by
  cases x with
  | error e => cases h
  | ok c => exact ⟨c, rfl, h⟩

theorem bind_error {α β : Type} {x : Except Failure α} {g : α → Except Failure β}
    (h : x >>= g = .error e) : x = .error e ∨ ∃ c, x = .ok c ∧ g c = .error e := by
  cases x with
  | error e' =>
    cases h
    exact Or.inl rfl
  | ok c => exact Or.inr ⟨c, rfl, h⟩

/-- The length of the arguments object is the number of arguments of the frame. -/
theorem lambdaCall_length (h : lambdaCall space frame = .ok entry) :
    entry.length = frame.nargs.toNat := by
  rw [lambdaCall] at h
  obtain ⟨values, -, h⟩ := bind_ok h
  obtain ⟨arguments, -, h⟩ := bind_ok h
  obtain ⟨parameters, -, h⟩ := bind_ok h
  split at h
  · cases h
  · cases h
    rfl

theorem restParametersInit_error (hmemory : space.memory = true)
    (h : restParametersInit space frame = .error e) : e = .fault := by
  rw [restParametersInit, if_pos hmemory] at h
  rcases bind_error h with h | ⟨array, -, h⟩
  · rw [restArray] at h
    split_ifs at h
    exact readValues_error h
  · split_ifs at h
    · cases h
    · exact (Except.error.inj h).symm

/-- With memory a function is entered, or a value that is not in the frame is used. -/
theorem lambdaCall_error (hmemory : space.memory = true)
    (h : lambdaCall space frame = .error e) : e = .fault := by
  rw [lambdaCall] at h
  rcases bind_error h with h | ⟨values, -, h⟩
  · rw [frameValues] at h
    split_ifs at h
    exact restParametersInit_error hmemory h
  rcases bind_error h with h | ⟨arguments, -, h⟩
  · rw [argumentsObjectInit, if_pos hmemory] at h
    exact readValues_error h
  rcases bind_error h with h | ⟨parameters, -, h⟩
  · exact readValues_error h
  · split at h
    · cases h
      rfl
    · cases h

theorem not_refused_lambdaCall (hmemory : space.memory = true) :
    ¬Refused (lambdaCall space frame) := by
  rintro (h | h) <;> cases lambdaCall_error hmemory h

/-- Without memory there is no arguments object. -/
theorem lambdaCall_refused (hmemory : space.memory = false) :
    Refused (lambdaCall space frame) := by
  right
  rw [lambdaCall, frameValues]
  cases hrest : frame.lambda.restParameters with
  | true =>
    rw [if_pos rfl, restParametersInit, if_neg (by simp [hmemory])]
    rfl
  | false =>
    rw [if_neg (by simp)]
    simp only [bind, Except.bind, argumentsObjectInit, hmemory, Bool.false_eq_true, if_false]

/-! ## The frames -/

/-- The values of a frame behind the `this` value. -/
def slots (f : Lambda) (a : List Argument) (p : ℕ) : List Slot :=
  let values := (a ++ List.replicate p (some Value.undefined)).map Slot.value
  if f.restParameters then values.set (f.nargs - 1) (.rest (a.drop (f.nargs - 1))) else values

/-- What a function sees that is entered with such a frame. -/
def entered (f : Lambda) (t : Argument) (a : List Argument) (p : ℕ) : Entry where
  this := .value t
  parameters := (slots f a p).take f.nargs
  length := a.length
  arguments := (slots f a p).take a.length

theorem length_slots : (slots f a p).length = a.length + p := by
  unfold slots
  split_ifs <;> simp

/-- The frame with the arguments in their places, and `undefined` behind them. -/
def padded (f : Lambda) (t : Argument) (a : List Argument) (p callee : ℕ) : Frame :=
  ⟨f, UInt32.ofNat a.length, t :: (a ++ List.replicate p (some Value.undefined)), callee⟩

theorem restArray_padded (hlength : a.length < 2 ^ 32) {n : ℕ} (hn : f.nargs = n + 1) :
    restArray (padded f t a p callee) = .ok (a.drop n) := by
  have hnargs : (UInt32.ofNat a.length).toNat = a.length := UInt32.toNat_ofNat_of_lt' hlength
  simp only [restArray, padded, hnargs, hn]
  split_ifs with hle
  · rw [readValues_eq (by simp; omega), List.drop_succ_cons,
      List.drop_append_of_le_length (by omega), List.take_append_of_le_length (by simp; omega),
      List.take_of_length_le (by simp; omega)]
  · rw [List.drop_eq_nil_of_le (by omega)]

theorem frameValues_padded (hmemory : space.memory = true) (hlength : a.length < 2 ^ 32)
    (hroom : f.nargs ≤ a.length + p) :
    frameValues space (padded f t a p callee) = .ok (.value t :: slots f a p) := by
  rw [frameValues, slots]
  by_cases hrest : f.restParameters = true
  · obtain ⟨n, hn⟩ := Nat.exists_eq_add_of_lt (f.rest_pos hrest)
    rw [Nat.zero_add] at hn
    have hlt : f.nargs < (padded f t a p callee).arguments.length := by
      simp only [padded, List.length_cons, List.length_append, List.length_replicate]
      omega
    have hlambda : (padded f t a p callee).lambda = f := rfl
    rw [hlambda, if_pos hrest, if_pos hrest, restParametersInit, if_pos hmemory,
      restArray_padded hlength hn, hlambda]
    simp only [bind, Except.bind, if_pos hlt]
    rw [hn, Nat.add_sub_cancel]
    rfl
  · rw [if_neg hrest]
    exact if_neg hrest

/-- A function is entered with such a frame. -/
theorem lambdaCall_padded (hmemory : space.memory = true) (hlength : a.length < 2 ^ 32)
    (hroom : f.nargs ≤ a.length + p) :
    lambdaCall space (padded f t a p callee) = .ok (entered f t a p) := by
  have hnargs : (padded f t a p callee).nargs.toNat = a.length :=
    UInt32.toNat_ofNat_of_lt' hlength
  have harguments : argumentsObjectInit space a.length (.value t :: slots f a p) =
      .ok ((slots f a p).take a.length) := by
    rw [argumentsObjectInit, if_pos hmemory, readValues_eq (by simp [length_slots]; omega)]
    rfl
  have hparameters : readValues (.value t :: slots f a p) 1 f.nargs =
      .ok ((slots f a p).take f.nargs) := by
    rw [readValues_eq (by simp [length_slots]; omega)]
    rfl
  have hlambda : (padded f t a p callee).lambda = f := rfl
  rw [lambdaCall, frameValues_padded hmemory hlength hroom]
  simp only [bind, Except.bind, hlambda, hnargs, harguments, hparameters]
  rfl

/-! ## What is entered, and what should be -/

theorem getElem?_slots {i : ℕ} (hroom : f.nargs ≤ a.length + p) : (slots f a p)[i]? =
    if f.restParameters = true ∧ i + 1 = f.nargs then some (.rest (a.drop i))
    else if i < a.length then some (.value ((a[i]?).getD none))
    else if i < a.length + p then some (.value (some .undefined)) else none := by
  have hvalues : ((a ++ List.replicate p (some Value.undefined)).map Slot.value)[i]? =
      if i < a.length then some (.value ((a[i]?).getD none))
      else if i < a.length + p then some (.value (some .undefined)) else none := by
    rw [List.getElem?_map]
    split_ifs with hi hp
    · rw [List.getElem?_append_left hi, List.getElem?_eq_getElem hi]
      rfl
    · rw [List.getElem?_append_right (by omega), List.getElem?_replicate, if_pos (by omega)]
      rfl
    · rw [List.getElem?_append_right (by omega), List.getElem?_replicate, if_neg (by omega)]
      rfl
  rw [slots]
  by_cases hrest : f.restParameters = true
  · have hpos := f.rest_pos hrest
    rw [if_pos hrest, List.getElem?_set, hvalues]
    by_cases hi : i + 1 = f.nargs
    · obtain rfl : i = f.nargs - 1 := by omega
      rw [if_pos rfl, if_pos (by simp; omega), if_pos ⟨hrest, hi⟩]
    · have hnot : ¬(f.restParameters = true ∧ i + 1 = f.nargs) := fun h => hi h.2
      rw [if_neg (by omega), if_neg hnot]
  · have hnot : ¬(f.restParameters = true ∧ i + 1 = f.nargs) := fun h => hrest h.1
    rw [if_neg hrest, hvalues, if_neg hnot]

/-- The function is entered as it should be if no argument is a hole and no argument is
overwritten, and only then. -/
theorem entered_eq_iff (hroom : f.nargs ≤ a.length + p) :
    entered f t a p = called f t a ↔ none ∉ a ∧ ¬Overwrites f a := by
  constructor
  · intro h
    have harguments : (slots f a p).take a.length = a.map fun v => .value (filled v) :=
      congrArg Entry.arguments h
    have hvalue : ∀ i < a.length,
        (slots f a p)[i]? = some (.value (filled ((a[i]?).getD none))) := by
      intro i hi
      have hget := congrArg (fun l => l[i]?) harguments
      simp only [List.getElem?_take_of_lt hi, List.getElem?_map] at hget
      rw [hget, List.getElem?_eq_getElem hi]
      rfl
    have hoverwrites : ¬Overwrites f a := by
      rintro ⟨hrest, hle⟩
      have hpos := f.rest_pos hrest
      have hlast := hvalue (f.nargs - 1) (by omega)
      rw [getElem?_slots hroom, if_pos ⟨hrest, by omega⟩] at hlast
      cases hlast
    refine ⟨fun hnone => ?_, hoverwrites⟩
    obtain ⟨i, hi, hget⟩ := List.getElem_of_mem hnone
    have hslot := hvalue i hi
    rw [getElem?_slots hroom, List.getElem?_eq_getElem hi, hget] at hslot
    split_ifs at hslot <;> cases hslot
  · rintro ⟨hholes, hoverwrites⟩
    have hfilled : ∀ v ∈ a, filled v = v := by
      intro v hv
      cases v with
      | none => exact absurd hv hholes
      | some v => rfl
    have hsame : ∀ i, filled ((a[i]?).getD none) = if i < a.length then (a[i]?).getD none
        else some .undefined := by
      intro i
      split_ifs with hi
      · rw [List.getElem?_eq_getElem hi]
        exact hfilled _ (List.getElem_mem hi)
      · rw [List.getElem?_eq_none (by omega)]
        rfl
    have hparameters : (slots f a p).take f.nargs = (List.range f.nargs).map (parameter f a) := by
      apply List.ext_getElem?
      intro i
      by_cases hi : i < f.nargs
      · rw [List.getElem?_take_of_lt hi, List.getElem?_map, List.getElem?_range hi,
          getElem?_slots hroom, Option.map_some, parameter, hsame]
        have hdrop : (a.drop i).map filled = a.drop i :=
          (List.map_congr_left fun v hv => hfilled v (List.mem_of_mem_drop hv)).trans
            (List.map_id _)
        split_ifs with hrest hlt hroom'
        · rw [hdrop]
        · rfl
        · rfl
        · omega
      · rw [List.getElem?_eq_none (by simp; omega), List.getElem?_eq_none (by simp; omega)]
    have harguments : (slots f a p).take a.length = a.map fun v => .value (filled v) := by
      apply List.ext_getElem?
      intro i
      by_cases hi : i < a.length
      · have hnot : ¬(f.restParameters = true ∧ i + 1 = f.nargs) := by
          rintro ⟨hrest, hlast⟩
          exact hoverwrites ⟨hrest, by omega⟩
        rw [List.getElem?_take_of_lt hi, getElem?_slots hroom, if_neg hnot, if_pos hi,
          List.getElem?_map, List.getElem?_eq_getElem hi]
        exact congrArg (fun v => some (Slot.value v)) (hfilled _ (List.getElem_mem hi)).symm
      · rw [List.getElem?_eq_none (by simp; omega), List.getElem?_eq_none (by simp; omega)]
    rw [entered, called, hparameters, harguments]

theorem putArguments_eq (front values args : List Argument) (h : args.length ≤ values.length) :
    putArguments (front ++ values) front.length args =
      front ++ (args ++ values.drop args.length) := by
  induction args generalizing front values with
  | nil => rfl
  | cons v args ih =>
    cases values with
    | nil => cases h
    | cons x values =>
      rw [List.length_cons, List.length_cons, Nat.add_le_add_iff_right] at h
      have hfront : (front ++ [v]).length = front.length + 1 := List.length_append
      rw [putArguments, List.set_append_right _ _ le_rfl, Nat.sub_self, List.set_cons_zero,
        List.append_cons, ← hfront, ih (front ++ [v]) values h, List.append_assoc]
      rfl

/-! ## The three ways -/

/-- The frame of a function that is not bound. -/
theorem lambdaFrame_script (hspace : space.lambda (1 + max a.length f.nargs) = true) :
    lambdaFrame space (.script f) t (some a) a.length =
      .ok (padded f t a (max a.length f.nargs - a.length) 1) :=
  if_pos hspace

theorem functionInvoke_script :
    Enters f t a (functionInvoke space (.script f) t a) ↔
      ¬(space.lambda (1 + max a.length f.nargs) = true ∧ space.memory = true) ∨
        none ∉ a ∧ ¬Overwrites f a := by
  by_cases hspace : space.lambda (1 + max a.length f.nargs) = true
  · have hinvoke : functionInvoke space (.script f) t a =
        lambdaCall space (padded f t a (max a.length f.nargs - a.length) 1) := by
      rw [functionInvoke, lambdaFrame_script hspace]
      rfl
    rw [hinvoke]
    by_cases hmemory : space.memory = true
    · have hlength : a.length < 2 ^ 32 := by
        have hle := space.lambda_le _ hspace
        have hmax : maxStackValues < 2 ^ 32 := by decide
        omega
      have hroom : f.nargs ≤ a.length + (max a.length f.nargs - a.length) := by omega
      rw [← entered_eq_iff (t := t) hroom]
      constructor
      · rintro (h | h)
        · rw [lambdaCall_padded hmemory hlength hroom] at h
          exact Or.inr (Except.ok.inj h)
        · exact absurd h (not_refused_lambdaCall hmemory)
      · rintro (h | h)
        · exact absurd ⟨hspace, hmemory⟩ h
        · left
          rw [lambdaCall_padded hmemory hlength hroom, h]
    · constructor
      · exact fun _ => Or.inl fun h => hmemory h.2
      · exact fun _ => Or.inr (lambdaCall_refused (Bool.eq_false_iff.mpr hmemory))
  · constructor
    · exact fun _ => Or.inl fun h => hspace h.1
    · intro _
      right
      left
      rw [functionInvoke, lambdaFrame, if_neg hspace]
      rfl

theorem enters_nativeFrame {result : Except Failure Entry} {count : ℕ} :
    Enters f t a (nativeFrame space count >>= fun _ => result) ↔
      ¬space.native (1 + count) = true ∨ Enters f t a result := by
  rw [nativeFrame]
  split_ifs with hspace
  · exact ⟨Or.inr, fun h => h.resolve_left fun hnot => hnot hspace⟩
  · exact ⟨fun _ => Or.inl hspace, fun _ => Or.inr (Or.inl rfl)⟩

/-- There is space for the frames of a function, and of the method that calls it. -/
def Granted (space : Space) (f : Lambda) (a : List Argument) (count : ℕ) : Prop :=
  space.native (1 + count) = true ∧ space.lambda (1 + max a.length f.nargs) = true ∧
    space.memory = true

theorem prototypeCall_iff :
    Enters f t a (prototypeCall space (.script f) (t :: a)) ↔
      ¬Granted space f a (a.length + 1) ∨ none ∉ a ∧ ¬Overwrites f a := by
  have hcall : prototypeCall space (.script f) (t :: a) =
      nativeFrame space (a.length + 1) >>= fun _ => functionInvoke space (.script f) t a := rfl
  rw [hcall, enters_nativeFrame, functionInvoke_script, Granted]
  tauto

theorem prototypeApply_array :
    Enters f t a (prototypeApply space (.script f) t (.array a)) ↔
      ¬Granted space f a 2 ∨ none ∉ a ∧ ¬Overwrites f a := by
  have happly : prototypeApply space (.script f) t (.array a) =
      nativeFrame space 2 >>= fun _ => functionInvoke space (.script f) t a := rfl
  rw [happly, enters_nativeFrame, functionInvoke_script, Granted]
  tauto

/-- The arguments that an object with a length stands for. -/
def ArrayLike.vector (o : ArrayLike) : List Argument :=
  (List.range o.length).map fun i => some ((o.property i).getD .undefined)

theorem arrayLikeLoop_eq (o : ArrayLike) (i k : ℕ) : arrayLikeLoop o i k =
    (List.range' i k).map fun i => some ((o.property i).getD .undefined) := by
  induction k generalizing i with
  | zero => rfl
  | succ k ih => rw [arrayLikeLoop, ih, List.range'_succ, List.map_cons]

theorem prototypeApply_object {o : ArrayLike} :
    Enters f t o.vector (prototypeApply space (.script f) t (.object o)) ↔
      ¬Granted space f o.vector 2 ∨ ¬Overwrites f o.vector := by
  have hvector : arrayLikeLoop o 0 o.length = o.vector := by
    rw [arrayLikeLoop_eq, ArrayLike.vector, List.range_eq_range']
  have hholes : none ∉ o.vector := by
    intro hnone
    obtain ⟨i, -, heq⟩ := List.mem_map.mp hnone
    cases heq
  have happly : prototypeApply space (.script f) t (.object o) =
      nativeFrame space 2 >>= fun _ => if space.memory then
        functionInvoke space (.script f) t o.vector else .error (.exception .memoryError) := by
    rw [← hvector]
    rfl
  rw [happly, enters_nativeFrame, Granted]
  by_cases hmemory : space.memory = true
  · rw [if_pos hmemory, functionInvoke_script]
    tauto
  · rw [if_neg hmemory]
    have hrefused : Enters f t o.vector (.error (.exception .memoryError)) := Or.inr (Or.inr rfl)
    tauto

/-! ## Functions that `bind()` returns -/

variable {a₁ a₂ : List Argument}

/-- A function is bound to some arguments and called with others. -/
def bindCall (space : Space) (f : Lambda) (t : Argument) (a₁ a₂ : List Argument) :
    Except Failure Entry := do
  let bound ← prototypeBind space (.script f) (t :: a₁)
  functionCall space bound a₂

/-- The number of values that a function is bound to, as it is kept. -/
def boundCount (a₁ : List Argument) : ℕ := (a₁.length + 1) % 256

/-- There is space for the frames of `bind()` and of the function. -/
def BoundGranted (space : Space) (f : Lambda) (a₁ a₂ : List Argument) : Prop :=
  space.native (1 + (a₁.length + 1)) = true ∧
    space.lambda (boundCount a₁ + max a₂.length f.nargs) = true ∧ space.memory = true

/-- The frame of a function that is bound. -/
def boundFrame (f : Lambda) (t : Argument) (a₁ a₂ : List Argument) : Frame where
  lambda := f
  nargs := UInt32.ofNat a₂.length + (UInt32.ofNat (boundCount a₁) - 1)
  arguments := putArguments ((t :: a₁).take (boundCount a₁) ++
    List.replicate (max a₂.length f.nargs) (some .undefined)) (boundCount a₁) a₂
  callee := boundCount a₁

theorem bindCall_granted (h : BoundGranted space f a₁ a₂) :
    bindCall space f t a₁ a₂ = lambdaCall space (boundFrame f t a₁ a₂) := by
  obtain ⟨hnative, hlambda, hmemory⟩ := h
  have hcount : (UInt8.ofNat (t :: a₁).length).toNat = boundCount a₁ := UInt8.toNat_ofNat'
  have hbind : prototypeBind space (.script f) (t :: a₁) =
      .ok (.bound (.script f) (UInt8.ofNat (t :: a₁).length) (t :: a₁)) := by
    have hnative' : space.native (1 + (t :: a₁).length) = true := hnative
    rw [prototypeBind, nativeFrame, if_pos hnative']
    simp only [hmemory, if_true, reduceCtorEq, if_false]
    rfl
  have hframe : lambdaFrame space (.bound (.script f) (UInt8.ofNat (t :: a₁).length) (t :: a₁))
      (some .undefined) none a₂.length =
        .ok ⟨f, UInt32.ofNat a₂.length + (UInt32.ofNat (boundCount a₁) - 1),
          (t :: a₁).take (boundCount a₁) ++ List.replicate (max a₂.length f.nargs)
            (some .undefined), boundCount a₁⟩ := by
    simp only [lambdaFrame, hcount, hlambda, if_true]
    rfl
  rw [bindCall, hbind]
  simp only [bind, Except.bind, functionCall, hframe]
  rfl

theorem bindCall_refused (h : ¬BoundGranted space f a₁ a₂) :
    Refused (bindCall space f t a₁ a₂) := by
  have hcount : (UInt8.ofNat (t :: a₁).length).toNat = boundCount a₁ := UInt8.toNat_ofNat'
  rw [bindCall, prototypeBind, nativeFrame]
  by_cases hnative : space.native (1 + (a₁.length + 1)) = true
  · by_cases hmemory : space.memory = true
    · have hlambda : ¬space.lambda (boundCount a₁ + max a₂.length f.nargs) = true :=
        fun hlambda => h ⟨hnative, hlambda, hmemory⟩
      left
      simp only [List.length_cons] at hcount
      simp only [List.length_cons, hnative, hmemory, if_true, reduceCtorEq, if_false, bind,
        Except.bind, pure, Except.pure, functionCall, lambdaFrame, hcount, if_neg hlambda]
    · right
      simp only [List.length_cons, hnative, if_true, bind, Except.bind, if_neg hmemory]
  · left
    simp only [List.length_cons, if_neg hnative, bind, Except.bind]

/-- The frame of a function that is bound to fewer than 255 arguments. -/
theorem boundFrame_eq (h : a₁.length + 1 < 256) :
    boundFrame f t a₁ a₂ =
      padded f t (a₁ ++ a₂) (max a₂.length f.nargs - a₂.length) (a₁.length + 1) := by
  have hcount : boundCount a₁ = a₁.length + 1 := Nat.mod_eq_of_lt h
  have hnargs : UInt32.ofNat a₂.length + (UInt32.ofNat (a₁.length + 1) - 1) =
      UInt32.ofNat (a₁ ++ a₂).length := by
    apply UInt32.toNat_inj.mp
    rw [List.length_append, UInt32.toNat_add, UInt32.toNat_sub, UInt32.toNat_ofNat',
      UInt32.toNat_ofNat', UInt32.toNat_ofNat', UInt32.toNat_one]
    omega
  have hput := putArguments_eq (t :: a₁)
    (List.replicate (max a₂.length f.nargs) (some Value.undefined)) a₂ (by simp)
  rw [List.length_cons] at hput
  rw [boundFrame, hcount, padded, hnargs, List.take_of_length_le (by simp), hput,
    List.drop_replicate, List.cons_append, List.append_assoc]

/-- With more arguments the arguments object does not have their number. -/
theorem length_boundFrame_ne (h : ¬a₁.length + 1 < 256) (h₁ : a₁.length ≤ maxStackValues)
    (h₂ : a₂.length ≤ maxStackValues) :
    (boundFrame f t a₁ a₂).nargs.toNat ≠ (a₁ ++ a₂).length := by
  have hmax : maxStackValues = 16384 := by decide
  have hcount : boundCount a₁ < 256 := Nat.mod_lt _ (by decide)
  rw [List.length_append]
  change (UInt32.ofNat a₂.length + (UInt32.ofNat (boundCount a₁) - 1)).toNat ≠ _
  rw [UInt32.toNat_add, UInt32.toNat_sub, UInt32.toNat_ofNat', UInt32.toNat_ofNat',
    UInt32.toNat_one]
  omega

theorem bindCall_iff :
    Enters f t (a₁ ++ a₂) (bindCall space f t a₁ a₂) ↔
      ¬BoundGranted space f a₁ a₂ ∨
        a₁.length + 1 < 256 ∧ none ∉ a₁ ++ a₂ ∧ ¬Overwrites f (a₁ ++ a₂) := by
  by_cases hgranted : BoundGranted space f a₁ a₂
  · rw [bindCall_granted hgranted]
    obtain ⟨hnative, hlambda, hmemory⟩ := hgranted
    have h₁ := space.native_le _ hnative
    have h₂ := space.lambda_le _ hlambda
    have hmax : maxStackValues < 2 ^ 31 := by decide
    have hlength : (a₁ ++ a₂).length < 2 ^ 32 := by
      rw [List.length_append]
      omega
    by_cases hfew : a₁.length + 1 < 256
    · have hroom : f.nargs ≤ (a₁ ++ a₂).length + (max a₂.length f.nargs - a₂.length) := by
        rw [List.length_append]
        omega
      rw [boundFrame_eq hfew, ← entered_eq_iff (t := t) hroom]
      constructor
      · rintro (h | h)
        · rw [lambdaCall_padded hmemory hlength hroom] at h
          exact Or.inr ⟨hfew, Except.ok.inj h⟩
        · exact absurd h (not_refused_lambdaCall hmemory)
      · rintro (h | ⟨-, h⟩)
        · exact absurd ⟨hnative, hlambda, hmemory⟩ h
        · left
          rw [lambdaCall_padded hmemory hlength hroom, h]
    · constructor
      · rintro (h | h)
        · have hne : (boundFrame f t a₁ a₂).nargs.toNat ≠ (a₁ ++ a₂).length :=
            length_boundFrame_ne hfew (by omega) (by omega)
          exact absurd (lambdaCall_length h).symm hne
        · exact absurd h (not_refused_lambdaCall hmemory)
      · rintro (h | h)
        · exact absurd ⟨hnative, hlambda, hmemory⟩ h
        · exact absurd h.1 hfew
  · exact ⟨fun _ => Or.inl hgranted, fun _ => Or.inr (bindCall_refused hgranted)⟩

/-- A function may be called with some arguments by `call()`, by `apply()` with an array or an
array-like object, or be bound to some and called with the others. Each way it is entered as it
should be exactly if there is no space for a frame, or no argument is a hole of the array, none
is at the place of the rest parameter or behind it, and fewer than 255 are bound. -/
theorem call_apply_bind_iff (space : Space) (f : Lambda) (t : Value) :
    (∀ a : List Value, Enters f (some t) (a.map some)
        (prototypeCall space (.script f) (some t :: a.map some)) ↔
      ¬Granted space f (a.map some) (a.length + 1) ∨ ¬Overwrites f (a.map some)) ∧
    (∀ a : List Argument, Enters f (some t) a
        (prototypeApply space (.script f) (some t) (.array a)) ↔
      ¬Granted space f a 2 ∨ none ∉ a ∧ ¬Overwrites f a) ∧
    (∀ o : ArrayLike, Enters f (some t) o.vector
        (prototypeApply space (.script f) (some t) (.object o)) ↔
      ¬Granted space f o.vector 2 ∨ ¬Overwrites f o.vector) ∧
    ∀ a₁ a₂ : List Value, Enters f (some t) ((a₁ ++ a₂).map some)
        (bindCall space f (some t) (a₁.map some) (a₂.map some)) ↔
      ¬BoundGranted space f (a₁.map some) (a₂.map some) ∨
        a₁.length + 1 < 256 ∧ ¬Overwrites f ((a₁ ++ a₂).map some) := by
  have hholes : ∀ a : List Value, none ∉ a.map some := by
    intro a hnone
    obtain ⟨v, -, hv⟩ := List.mem_map.mp hnone
    cases hv
  refine ⟨fun a => ?_, fun a => prototypeApply_array, fun o => prototypeApply_object,
    fun a₁ a₂ => ?_⟩
  · rw [prototypeCall_iff, List.length_map]
    have hnone := hholes a
    tauto
  · have hnone := hholes (a₁ ++ a₂)
    rw [List.map_append] at hnone ⊢
    rw [bindCall_iff, List.length_map]
    tauto

/-- An empty stack, with memory. -/
def emptyStack : Space where
  native n := n ≤ maxStackValues
  lambda n := n ≤ maxStackValues
  memory := true
  native_le _ h := of_decide_eq_true h
  lambda_le _ h := of_decide_eq_true h

/-- `function (...rest) {}`. -/
def restOnly : Lambda := ⟨1, true, fun _ => Nat.one_pos⟩

/-- `function (x) {}`. -/
def oneParameter : Lambda := ⟨1, false, fun _ => Nat.one_pos⟩

/-- In `(function (...rest) {}).call(undefined, null)` the first element of the arguments object
is the array `rest`. In `(function (x) {}).apply(undefined, [,])` the parameter is a hole. A
function that is bound to 255 arguments and called without others is entered without them. -/
theorem not_call_apply_bind :
    ¬Enters restOnly (some .undefined) [some .null]
        (prototypeCall emptyStack (.script restOnly) [some .undefined, some .null]) ∧
      ¬Enters oneParameter (some .undefined) [none]
        (prototypeApply emptyStack (.script oneParameter) (some .undefined) (.array [none])) ∧
      ¬Enters oneParameter (some .undefined) (List.replicate 255 (some .null) ++ [])
        (bindCall emptyStack oneParameter (some .undefined) (List.replicate 255 (some .null))
          []) := by
  refine ⟨?_, ?_, ?_⟩
  · rw [prototypeCall_iff]
    rintro (h | ⟨-, h⟩)
    · exact h ⟨by decide, by decide, rfl⟩
    · exact h ⟨rfl, le_rfl⟩
  · rw [prototypeApply_array]
    rintro (h | ⟨h, -⟩)
    · exact h ⟨by decide, by decide, rfl⟩
    · exact h (List.mem_singleton.mpr rfl)
  · rw [bindCall_iff]
    have hlength : (List.replicate 255 (some Value.null)).length = 255 := List.length_replicate
    rintro (h | ⟨h, -⟩)
    · exact h ⟨by rw [hlength]; decide, by rw [boundCount, hlength]; decide, rfl⟩
    · rw [hlength] at h
      exact absurd h (by decide)

end Njs.Functions
