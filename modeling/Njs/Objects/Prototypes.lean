import Mathlib.Data.List.Basic
import Njs.Lib.Fuel

/-!
# Prototype links

The links between the objects of a VM, and everything that writes them: the initialisation of the
built-in objects, the creation and the copying of objects, memory errors, and `__proto__`. Objects
are numbered, and a new object has the next number. A loop that runs out of fuel and one that
follows a dangling pointer give nothing.
-/

namespace Njs.Prototypes

open Lib

/-- The fields of `njs_object_t` that links depend on. -/
structure Object where
  proto : Option ℕ
  extensible : Bool
  deriving DecidableEq

/-- The objects of a VM. -/
abbrev Heap := List Object

/-- `object->__proto__`. -/
def Heap.link (heap : Heap) (object : ℕ) : Option (Option ℕ) := heap[object]?.map Object.proto

/-- `object->__proto__ = proto`. -/
def Heap.setLink (heap : Heap) (object : ℕ) (proto : Option ℕ) : Heap :=
  heap.modify object fun o => { o with proto }

/-! ## The built-in objects -/

/-- `NJS_OBJ_TYPE_OBJECT`. -/
def typeObject : ℕ := 0

/-- `NJS_OBJ_TYPE_ARRAY`. -/
def typeArray : ℕ := 1

/-- `NJS_OBJ_TYPE_STRING`. -/
def typeString : ℕ := 4

/-- `NJS_OBJ_TYPE_FUNCTION`. -/
def typeFunction : ℕ := 5

/-- `NJS_OBJ_TYPE_ERROR`. -/
def typeError : ℕ := 10

/-- `NJS_OBJ_TYPE_EVAL_ERROR`. -/
def typeEvalError : ℕ := 11

/-- `NJS_OBJ_TYPE_INTERNAL_ERROR`. -/
def typeInternalError : ℕ := 12

/-- `NJS_OBJ_TYPE_MAX`. -/
def typeMax : ℕ := 19

/-- `vm->prototypes[type].object`. -/
def prototypes (type : ℕ) : ℕ := type

/-- `vm->constructors[type].object`. -/
def constructors (type : ℕ) : ℕ := typeMax + type

/-- `vm->global_object`. -/
def globalObject : ℕ := 2 * typeMax

/-- `vm->string_object`. -/
def stringObject : ℕ := 2 * typeMax + 1

/-- The loops of `njs_builtin_objects_clone`, from one type up to another one. -/
def setLinks (heap : Heap) (object : ℕ → ℕ) (start stop proto : ℕ) : Heap :=
  (List.range' start (stop - start)).foldl (fun heap i => heap.setLink (object i) (some proto)) heap

/-- `njs_builtin_objects_clone`, and the objects of `vm->shared`, which no link is written to. -/
def builtinObjectsClone (shared : ℕ) : Heap :=
  -- The memory that is copied has the links of `njs_builtin_objects_create`, which are null.
  let heap := List.replicate (2 * typeMax + 1) ⟨none, true⟩ ++ [⟨none, false⟩]
  let heap := setLinks heap prototypes typeArray typeEvalError (prototypes typeObject)
  let heap := setLinks heap prototypes typeEvalError typeMax (prototypes typeError)
  let heap := setLinks heap constructors typeObject typeEvalError (prototypes typeFunction)
  let heap := setLinks heap constructors typeEvalError typeMax (constructors typeError)
  let heap := heap.setLink globalObject (some (prototypes typeObject))
  let heap := heap.setLink stringObject (some (prototypes typeString))
  heap ++ List.replicate shared ⟨none, true⟩

/-! ## Loops over a chain -/

/-- The loop `do { … proto = proto->__proto__ } while (proto != NULL)`, which the body may leave
with a result. -/
def follow {ρ : Type} (heap : Heap) (body : ℕ → Option ρ) : ℕ → ℕ → Option (Option ρ)
  | 0, _ => none
  | fuel + 1, proto =>
    match body proto with
    | some r => some (some r)
    | none =>
      match heap.link proto with
      | none => none
      | some none => some none
      | some (some proto) => follow heap body fuel proto

/-- `njs_object_property_query`, where `own` is what the hashes of an object have for the key. -/
def objectPropertyQuery {α : Type} (heap : Heap) (own : ℕ → Option α) (fuel object : ℕ) :
    Option (Option α) :=
  follow heap own fuel object

/-- `njs_object_exist_in_proto`, where `has` says which names the hashes of an object have. -/
def existInProto {κ : Type} (heap : Heap) (has : ℕ → κ → Bool) (stop : ℕ) (key : κ) :
    ℕ → ℕ → Option Bool
  | 0, _ => none
  | fuel + 1, object =>
    if object = stop then some false
    else if has object key then some true
    else
      match heap.link object with
      | some (some proto) => existInProto heap has stop key fuel proto
      | _ => none

/-- The loop of `njs_object_own_enumerate_object` over the keys of an object. -/
def ownEnumerate {κ : Type} (heap : Heap) (has : ℕ → κ → Bool) (parent object fuel : ℕ) :
    List κ → Option (List κ)
  | [] => some []
  | key :: keys => do
    let exists' ← existInProto heap has object key fuel parent
    let rest ← ownEnumerate heap has parent object fuel keys
    return if exists' then rest else key :: rest

/-- `njs_object_enumerate_object` from an object of the chain on, where `own` are the keys that an
object itself has. -/
def enumerateObject {κ : Type} (heap : Heap) (own : ℕ → List κ) (has : ℕ → κ → Bool)
    (parent : ℕ) : ℕ → ℕ → Option (List κ)
  | 0, _ => none
  | fuel + 1, object => do
    let items ← ownEnumerate heap has parent object fuel (own object)
    match heap.link object with
    | none => none
    | some none => return items
    | some (some proto) =>
      let rest ← enumerateObject heap own has parent fuel proto
      return items ++ rest

/-! ## Writers -/

/-- `NJS_OK`, `NJS_DECLINED`, which is no error for a program, and `NJS_ERROR`. -/
inductive Outcome
  | ok | declined | error
  deriving DecidableEq

/-- `njs_object_set_prototype_of`. -/
def setPrototypeOf (fuel : ℕ) (heap : Heap) (object : ℕ) (value : Option ℕ) :
    Option (Outcome × Heap) :=
  match heap[object]? with
  | none => none
  | some o =>
    if o.proto = value then some (.ok, heap)
    else if ¬o.extensible then some (.declined, heap)
    else
      match value with
      | none => some (.ok, heap.setLink object none)
      | some proto =>
        match follow heap (fun p => if p = object then some () else none) fuel proto with
        | none => none
        | some (some ()) => some (.error, heap)
        | some none => some (.ok, heap.setLink object (some proto))

/-- The objects of a VM, and `vm->memory_error_object` when programs can have it. -/
structure State where
  heap : Heap
  memoryError : Option ℕ

/-- What a program or the VM does with links. -/
inductive Op
  /-- `njs_object_alloc`, and the functions that allocate objects of other types. -/
  | alloc (type : ℕ)
  /-- `njs_object_value_copy`, `njs_function_copy`, `njs_function_prototype_bind` and
  `njs_module_require`. -/
  | copy (object type : ℕ)
  /-- `njs_object_create` of an object or `null`. -/
  | create (proto : Option ℕ)
  /-- `njs_function_new_object`, where the property `prototype` may be no object. -/
  | construct (proto : Option ℕ)
  /-- `njs_object_prototype_proto`, of an object, `null` or another value. -/
  | setProto (object : ℕ) (setval : Option (Option ℕ))
  /-- `njs_object_prevent_extensions`, `njs_object_freeze` and `njs_object_seal`. -/
  | preventExtensions (object : ℕ)
  /-- `njs_memory_error_set`. -/
  | memoryError

/-- The objects that an operation is about are objects of the VM. -/
def Op.Valid (s : State) : Op → Prop
  | .alloc type => type < typeMax
  | .copy object type => object < s.heap.length ∧ type < typeMax
  | .create proto | .construct proto => ∀ p ∈ proto, p < s.heap.length
  | .setProto object setval => object < s.heap.length ∧
      ∀ value ∈ setval, ∀ p ∈ value, p < s.heap.length
  | .preventExtensions object => object < s.heap.length
  | .memoryError => True

/-- A new object. -/
def State.push (s : State) (o : Object) : State := { s with heap := s.heap ++ [o] }

/-- `njs_memory_error_set`. -/
def memoryErrorSet (s : State) : State :=
  let object : Object := ⟨some (prototypes typeInternalError), false⟩
  match s.memoryError with
  | none => { heap := s.heap ++ [object], memoryError := some s.heap.length }
  | some m => { s with heap := s.heap.set m object }

/-- What an operation does. -/
def run (fuel : ℕ) (s : State) : Op → Option (Outcome × State)
  | .alloc type => some (.ok, s.push ⟨some (prototypes type), true⟩)
  | .copy object type =>
    match s.heap[object]? with
    | none => none
    | some o => some (.ok, s.push { o with proto := some (prototypes type) })
  | .create proto => some (.ok, s.push ⟨proto, true⟩)
  | .construct proto => some (.ok, s.push ⟨proto.or (some (prototypes typeObject)), true⟩)
  | .setProto object setval =>
    match setval with
    | none => some (.ok, s)
    | some value =>
      (setPrototypeOf fuel s.heap object value).map fun r => (r.1, { s with heap := r.2 })
  | .preventExtensions object =>
    some (.ok, { s with heap := s.heap.modify object fun o => { o with extensible := false } })
  | .memoryError => some (.ok, memoryErrorSet s)

/-- A VM behind its initialisation. -/
def init (shared : ℕ) : State := ⟨builtinObjectsClone shared, none⟩

/-- The states that operations lead to. -/
inductive Reachable : State → Prop
  | init (shared : ℕ) : Reachable (init shared)
  | run {s s' : State} {op : Op} {fuel : ℕ} {outcome : Outcome} (h : Reachable s)
      (hop : op.Valid s) (hrun : run fuel s op = some (outcome, s')) : Reachable s'

/-! ## Chains that end -/

/-- The chain of an object reaches null. -/
inductive Ends (heap : Heap) : ℕ → Prop
  | null {object : ℕ} (h : heap.link object = some none) : Ends heap object
  | next {object proto : ℕ} (h : heap.link object = some (some proto)) (hproto : Ends heap proto) :
      Ends heap object

variable {heap heap' : Heap} {s s' : State} {object proto stop : ℕ} {value : Option ℕ}
  {outcome : Outcome} {op : Op} {fuel : ℕ}

/-- Links are where they were, apart from those of one object. -/
def SameLinks (heap heap' : Heap) (object : ℕ) : Prop := ∀ p ≠ object, heap'.link p = heap.link p

theorem link_setLink_of_ne {p : ℕ} (h : p ≠ object) (value : Option ℕ) :
    (heap.setLink object value).link p = heap.link p := by
  rw [Heap.link, Heap.link, Heap.setLink, List.getElem?_modify_ne _ _ (Ne.symm h)]

theorem link_setLink (h : object < heap.length) (value : Option ℕ) :
    (heap.setLink object value).link object = some value := by
  simp [Heap.link, Heap.setLink, h]

theorem link_append_of_lt {new : List Object} (h : object < heap.length) :
    Heap.link (heap ++ new) object = heap.link object := by
  rw [Heap.link, Heap.link, List.getElem?_append_left h]

theorem lt_of_link {r : Option ℕ} (h : heap.link object = some r) : object < heap.length := by
  rw [Heap.link, Option.map_eq_some_iff] at h
  obtain ⟨o, ho, -⟩ := h
  exact (List.getElem?_eq_some_iff.mp ho).1

/-- New objects do not change the chains of the others. -/
theorem Ends.append (h : Ends heap object) (new : List Object) : Ends (heap ++ new) object := by
  induction h with
  | null h => exact .null ((link_append_of_lt (lt_of_link h)).trans h)
  | next h _ ih => exact .next ((link_append_of_lt (lt_of_link h)).trans h) ih

/-- A chain ends after the change of one link if the chain of that object does. -/
theorem Ends.change (h : Ends heap stop) (hsame : SameLinks heap heap' object)
    (hobject : Ends heap' object) : Ends heap' stop := by
  induction h with
  | @null stop h =>
    by_cases hstop : stop = object
    · rwa [hstop]
    · exact .null ((hsame stop hstop).trans h)
  | @next stop proto h _ ih =>
    by_cases hstop : stop = object
    · rwa [hstop]
    · exact .next ((hsame stop hstop).trans h) ih

/-- The check finds that the object is not on the chain, which therefore ends when the link of
the object is another one. -/
theorem ends_of_check (hsame : SameLinks heap heap' object)
    (h : follow heap (fun p => if p = object then some () else none) fuel proto = some none) :
    Ends heap' proto := by
  induction fuel generalizing proto with
  | zero => cases h
  | succ fuel ih =>
    rw [follow] at h
    by_cases hproto : proto = object
    · simp [hproto] at h
    · simp only [hproto, if_false] at h
      cases hlink : heap.link proto with
      | none => simp [hlink] at h
      | some value =>
        cases value with
        | none => exact .null ((hsame proto hproto).trans hlink)
        | some next =>
          simp only [hlink] at h
          exact .next ((hsame proto hproto).trans hlink) (ih h)

/-! ## The invariant -/

/-- All chains end, the built-in objects are there, and the link of the memory error stays. -/
structure Sound (s : State) : Prop where
  ends : ∀ object < s.heap.length, Ends s.heap object
  builtin : 2 * typeMax + 2 ≤ s.heap.length
  memoryError : ∀ m ∈ s.memoryError,
    s.heap[m]? = some ⟨some (prototypes typeInternalError), false⟩

theorem Sound.push (h : Sound s) {o : Object} (ho : ∀ p ∈ o.proto, p < s.heap.length) :
    Sound (s.push o) := by
  constructor
  · intro object hobject
    rw [State.push, List.length_append, List.length_singleton] at hobject
    rcases Nat.lt_succ_iff_lt_or_eq.mp hobject with hlt | rfl
    · exact (h.ends object hlt).append _
    · have hlink : Heap.link (s.push o).heap s.heap.length = some o.proto := by
        simp [Heap.link, State.push]
      cases hproto : o.proto with
      | none => exact .null (by rw [hlink, hproto])
      | some p =>
        have hp := ho p (by simp [hproto])
        exact .next (by rw [hlink, hproto]) ((h.ends p hp).append _)
  · have hbuiltin := h.builtin
    rw [State.push, List.length_append]
    omega
  · intro m hm
    have hget := h.memoryError m hm
    have hlt := (List.getElem?_eq_some_iff.mp hget).1
    rw [State.push, List.getElem?_append_left hlt]
    exact hget

theorem Sound.prototypes_lt (h : Sound s) {type : ℕ} (htype : type < typeMax) :
    prototypes type < s.heap.length := by
  have hbuiltin := h.builtin
  unfold prototypes
  omega

/-- What `njs_object_set_prototype_of` does: it leaves the links as they are, or it writes one link
of an extensible object, whose chain ends. -/
theorem setPrototypeOf_cases (h : setPrototypeOf fuel heap object value = some (outcome, heap')) :
    heap' = heap ∨ (outcome = .ok ∧ heap' = heap.setLink object value ∧
      (∃ o, heap[object]? = some o ∧ o.extensible = true) ∧
      ∀ proto ∈ value, Ends heap' proto) := by
  unfold setPrototypeOf at h
  cases hobject : heap[object]? with
  | none => simp [hobject] at h
  | some o =>
    simp only [hobject] at h
    by_cases hsame : o.proto = value
    · rw [if_pos hsame] at h
      cases h
      exact .inl rfl
    rw [if_neg hsame] at h
    by_cases hext : o.extensible = true
    · rw [if_neg (not_not_intro hext)] at h
      cases value with
      | none =>
        cases h
        exact .inr ⟨rfl, rfl, ⟨o, rfl, hext⟩, by simp⟩
      | some proto =>
        cases hcheck : follow heap (fun p => if p = object then some () else none) fuel proto with
        | none => simp [hcheck] at h
        | some result =>
          cases result with
          | some u =>
            simp only [hcheck] at h
            cases h
            exact .inl rfl
          | none =>
            simp only [hcheck] at h
            cases h
            refine .inr ⟨rfl, rfl, ⟨o, rfl, hext⟩, ?_⟩
            intro p hp
            cases hp
            exact ends_of_check (fun p hp => link_setLink_of_ne hp _) hcheck
    · rw [if_pos hext] at h
      cases h
      exact .inl rfl

/-- A rejected change leaves the objects as they are. -/
theorem setPrototypeOf_rejected
    (h : setPrototypeOf fuel heap object value = some (outcome, heap')) (houtcome : outcome ≠ .ok) :
    heap' = heap := by
  rcases setPrototypeOf_cases h with heq | ⟨hok, -⟩
  · exact heq
  · exact absurd hok houtcome

theorem length_setLink (heap : Heap) (object : ℕ) (value : Option ℕ) :
    (heap.setLink object value).length = heap.length := List.length_modify _ _ _

/-- Where the link of one object is another one and its chain ends, all chains do. -/
theorem Sound.setLink (h : Sound s) {o : Object} (hobject : s.heap[object]? = some o)
    (hext : o.extensible = true)
    (hvalue : ∀ proto ∈ value, Ends (s.heap.setLink object value) proto) :
    Sound { s with heap := s.heap.setLink object value } := by
  have hlt := (List.getElem?_eq_some_iff.mp hobject).1
  have hends : Ends (s.heap.setLink object value) object := by
    cases value with
    | none => exact .null (link_setLink hlt none)
    | some proto => exact .next (link_setLink hlt _) (hvalue proto rfl)
  constructor
  · intro p hp
    rw [length_setLink] at hp
    exact (h.ends p hp).change (fun q hq => link_setLink_of_ne hq value) hends
  · rw [length_setLink]
    exact h.builtin
  · intro m hm
    have hget := h.memoryError m hm
    have hne : object ≠ m := by
      rintro rfl
      rw [hobject] at hget
      cases hget
      cases hext
    rw [Heap.setLink, List.getElem?_modify_ne _ _ hne]
    exact hget

theorem Ends.congr (h : Ends heap object) (hsame : ∀ p, heap'.link p = heap.link p) :
    Ends heap' object := by
  induction h with
  | null h => exact .null ((hsame _).trans h)
  | next h _ ih => exact .next ((hsame _).trans h) ih

theorem Sound.preventExtensions (h : Sound s) (object : ℕ) :
    Sound { s with heap := s.heap.modify object fun o => { o with extensible := false } } := by
  have hlink (p : ℕ) : Heap.link (s.heap.modify object fun o => { o with extensible := false }) p =
      s.heap.link p := by
    rw [Heap.link, Heap.link, List.getElem?_modify]
    cases s.heap[p]? with
    | none => rfl
    | some o => by_cases hp : object = p <;> simp [hp]
  constructor
  · intro p hp
    rw [List.length_modify] at hp
    exact (h.ends p hp).congr hlink
  · rw [List.length_modify]
    exact h.builtin
  · intro m hm
    have hget := h.memoryError m hm
    simp only [List.getElem?_modify, hget]
    by_cases hm' : object = m <;> simp [hm']

/-- The memory error has the same link whenever it is set. -/
theorem Sound.memoryErrorSet (h : Sound s) : Sound (memoryErrorSet s) := by
  unfold Prototypes.memoryErrorSet
  cases hmemory : s.memoryError with
  | none =>
    have hpush : Sound (s.push ⟨some (prototypes typeInternalError), false⟩) := by
      apply h.push
      intro p hp
      cases hp
      exact h.prototypes_lt (by decide)
    constructor
    · exact hpush.ends
    · exact hpush.builtin
    · intro m hm
      cases hm
      simp
  | some m =>
    have hget := h.memoryError m hmemory
    have hset : s.heap.set m ⟨some (prototypes typeInternalError), false⟩ = s.heap := by
      obtain ⟨hlt, hm⟩ := List.getElem?_eq_some_iff.mp hget
      rw [← hm, List.set_getElem_self]
    simp only [hset]
    exact ⟨h.ends, h.builtin, by simpa [hmemory] using h.memoryError⟩

/-- Every operation keeps the invariant. -/
theorem Sound.run (h : Sound s) (hop : op.Valid s) (hrun : run fuel s op = some (outcome, s')) :
    Sound s' := by
  cases op with
  | alloc type =>
    cases hrun
    apply h.push
    intro p hp
    cases hp
    exact h.prototypes_lt hop
  | copy object type =>
    rw [Prototypes.run] at hrun
    cases hobject : s.heap[object]? with
    | none => simp [hobject] at hrun
    | some o =>
      simp only [hobject] at hrun
      cases hrun
      apply h.push
      intro p hp
      cases hp
      exact h.prototypes_lt hop.2
  | create proto =>
    cases hrun
    exact h.push hop
  | construct proto =>
    cases hrun
    apply h.push
    intro p hp
    cases proto with
    | none =>
      cases hp
      exact h.prototypes_lt (by decide)
    | some q => exact hop p hp
  | setProto object setval =>
    cases setval with
    | none =>
      cases hrun
      exact h
    | some value =>
      rw [Prototypes.run, Option.map_eq_some_iff] at hrun
      obtain ⟨⟨outcome', heap'⟩, hset, heq⟩ := hrun
      cases heq
      rcases setPrototypeOf_cases hset with rfl | ⟨-, rfl, ⟨o, ho, hext⟩, hvalue⟩
      · exact h
      · exact h.setLink ho hext hvalue
  | preventExtensions object =>
    cases hrun
    exact h.preventExtensions object
  | memoryError =>
    cases hrun
    exact h.memoryErrorSet

/-- The chain reaches null within so many steps. -/
def endsWithin (heap : Heap) : ℕ → ℕ → Bool
  | 0, _ => false
  | n + 1, object =>
    match heap.link object with
    | none => false
    | some none => true
    | some (some proto) => endsWithin heap n proto

theorem ends_of_endsWithin {n : ℕ} (h : endsWithin heap n object = true) : Ends heap object := by
  induction n generalizing object with
  | zero => cases h
  | succ n ih =>
    rw [endsWithin] at h
    cases hlink : heap.link object with
    | none => simp [hlink] at h
    | some value =>
      cases value with
      | none => exact .null hlink
      | some proto =>
        simp only [hlink] at h
        exact .next hlink (ih h)

/-- The chains of a VM behind its initialisation have five objects at most. -/
theorem sound_init (shared : ℕ) : Sound (init shared) := by
  have hclone : builtinObjectsClone shared =
      builtinObjectsClone 0 ++ List.replicate shared ⟨none, true⟩ := by
    simp [builtinObjectsClone]
  have hlength : (builtinObjectsClone 0).length = 2 * typeMax + 2 := by decide
  have hbuiltin : ∀ object < 2 * typeMax + 2, endsWithin (builtinObjectsClone 0) 5 object = true :=
    by decide
  constructor
  · intro object hobject
    simp only [init] at hobject ⊢
    rw [hclone] at hobject ⊢
    by_cases hlt : object < 2 * typeMax + 2
    · exact (ends_of_endsWithin (hbuiltin object hlt)).append _
    · apply Ends.null
      rw [List.length_append, List.length_replicate] at hobject
      rw [Heap.link, List.getElem?_append_right (by omega),
        List.getElem?_replicate_of_lt (by omega)]
      rfl
  · simp only [init]
    rw [hclone, List.length_append, hlength]
    omega
  · intro m hm
    cases hm

theorem Reachable.sound (h : Reachable s) : Sound s := by
  induction h with
  | init shared => exact sound_init shared
  | run _ hop hrun ih => exact ih.run hop hrun

/-! ## Loops that end -/

/-- A loop over a chain that ends gives a result. -/
theorem Ends.follow {ρ : Type} (h : Ends heap object) (body : ℕ → Option ρ) :
    ∃ r, Yields (fun fuel => follow heap body fuel object) r := by
  induction h with
  | @null object h =>
    cases hbody : body object with
    | some r => exact ⟨some r, 1, fun fuel hfuel => by
        obtain ⟨fuel, rfl⟩ := Nat.exists_eq_succ_of_ne_zero (Nat.ne_of_gt hfuel)
        simp [Prototypes.follow, hbody]⟩
    | none => exact ⟨none, 1, fun fuel hfuel => by
        obtain ⟨fuel, rfl⟩ := Nat.exists_eq_succ_of_ne_zero (Nat.ne_of_gt hfuel)
        simp [Prototypes.follow, hbody, h]⟩
  | @next object proto h _ ih =>
    obtain ⟨r, hr⟩ := ih
    cases hbody : body object with
    | some r => exact ⟨some r, 1, fun fuel hfuel => by
        obtain ⟨fuel, rfl⟩ := Nat.exists_eq_succ_of_ne_zero (Nat.ne_of_gt hfuel)
        simp [Prototypes.follow, hbody]⟩
    | none =>
      refine ⟨r, hr.succ fun fuel => ?_⟩
      simp [Prototypes.follow, hbody, h]

/-- The second object is on the chain of the first one. -/
inductive On (heap : Heap) : ℕ → ℕ → Prop
  | self (object : ℕ) : On heap object object
  | next {object proto stop : ℕ} (h : heap.link object = some (some proto))
      (hproto : On heap proto stop) : On heap object stop

theorem On.snoc (h : On heap object stop) (hlink : heap.link stop = some (some proto)) :
    On heap object proto := by
  induction h with
  | self object => exact .next hlink (.self proto)
  | next h _ ih => exact .next h (ih hlink)

/-- The search ends at the object at the latest. -/
theorem On.existInProto {κ : Type} (h : On heap object stop) (has : ℕ → κ → Bool) (key : κ) :
    ∃ r, Yields (fun fuel => existInProto heap has stop key fuel object) r := by
  induction h with
  | self object =>
    refine ⟨false, (yields_of_forall fun fuel => rfl).succ (g := fun _ => some false) ?_⟩
    intro fuel
    simp [Prototypes.existInProto]
  | @next object proto stop h _ ih =>
    obtain ⟨r, hr⟩ := ih
    by_cases hstop : object = stop
    · refine ⟨false, (yields_of_forall fun fuel => rfl).succ (g := fun _ => some false) ?_⟩
      intro fuel
      simp [Prototypes.existInProto, hstop]
    · by_cases hkey : has object key = true
      · refine ⟨true, (yields_of_forall fun fuel => rfl).succ (g := fun _ => some true) ?_⟩
        intro fuel
        simp [Prototypes.existInProto, hstop, hkey]
      · refine ⟨r, hr.succ fun fuel => ?_⟩
        simp [Prototypes.existInProto, hstop, hkey, h]

theorem On.ownEnumerate {κ : Type} (h : On heap object stop) (has : ℕ → κ → Bool)
    (keys : List κ) :
    ∃ r, Yields (fun fuel => ownEnumerate heap has object stop fuel keys) r := by
  induction keys with
  | nil => exact ⟨[], yields_of_forall fun fuel => rfl⟩
  | cons key keys ih =>
    obtain ⟨rest, hrest⟩ := ih
    obtain ⟨found, hfound⟩ := h.existInProto has key
    refine ⟨if found then rest else key :: rest, ?_⟩
    exact hfound.bind (hrest.bind (yields_of_forall fun fuel => rfl))

/-- The enumeration ends. -/
theorem Ends.enumerateObject {κ : Type} (h : Ends heap stop) (hon : On heap object stop)
    (own : ℕ → List κ) (has : ℕ → κ → Bool) :
    ∃ r, Yields (fun fuel => enumerateObject heap own has object fuel stop) r := by
  induction h with
  | @null stop h =>
    obtain ⟨items, hitems⟩ := hon.ownEnumerate has (own stop)
    refine ⟨items, (hitems.bind (yields_of_forall fun fuel => rfl)).succ fun fuel => ?_⟩
    simp only [Prototypes.enumerateObject, h]
    rfl
  | @next stop proto h _ ih =>
    obtain ⟨items, hitems⟩ := hon.ownEnumerate has (own stop)
    obtain ⟨rest, hrest⟩ := ih (hon.snoc h)
    have hboth : Yields (fun fuel =>
        Prototypes.ownEnumerate heap has object stop fuel (own stop) >>= fun items =>
          Prototypes.enumerateObject heap own has object fuel proto >>= fun rest =>
            some (items ++ rest)) (items ++ rest) := by
      apply hitems.bind
      apply hrest.bind
      exact yields_of_forall fun fuel => rfl
    refine ⟨items ++ rest, hboth.succ fun fuel => ?_⟩
    simp only [Prototypes.enumerateObject, h]
    rfl

/-- The check for cycles ends. -/
theorem Sound.setPrototypeOf (h : Sound s) (hobject : object < s.heap.length)
    (hvalue : ∀ p ∈ value, p < s.heap.length) :
    ∃ r, Yields (fun fuel => setPrototypeOf fuel s.heap object value) r := by
  have hget : s.heap[object]? = some s.heap[object] := List.getElem?_eq_getElem hobject
  by_cases hsame : s.heap[object].proto = value
  · refine ⟨(.ok, s.heap), yields_of_forall fun fuel => ?_⟩
    simp [Prototypes.setPrototypeOf, hobject, hsame]
  by_cases hext : s.heap[object].extensible = true
  · cases value with
    | none =>
      refine ⟨(.ok, s.heap.setLink object none), yields_of_forall fun fuel => ?_⟩
      simp [Prototypes.setPrototypeOf, hobject, hsame, hext]
    | some proto =>
      obtain ⟨r, hr⟩ := (h.ends proto (hvalue proto rfl)).follow
        fun p => if p = object then some () else none
      have hcheck : Yields (fun fuel => Prototypes.setPrototypeOf fuel s.heap object (some proto))
          (r.elim (.ok, s.heap.setLink object (some proto)) fun _ => (.error, s.heap)) := by
        obtain ⟨n, hn⟩ := hr
        refine ⟨n, fun fuel hfuel => ?_⟩
        simp only [Prototypes.setPrototypeOf, hget, hsame, hext, hn fuel hfuel, if_false,
          not_true_eq_false]
        rcases r with _ | ⟨⟩ <;> rfl
      exact ⟨_, hcheck⟩
  · refine ⟨(.declined, s.heap), yields_of_forall fun fuel => ?_⟩
    simp [Prototypes.setPrototypeOf, hobject, hsame, hext]

/-- Every operation ends. -/
theorem Sound.yields (h : Sound s) (hop : op.Valid s) :
    ∃ r, Yields (fun fuel => Prototypes.run fuel s op) r := by
  cases op with
  | copy object type =>
    have hlt : object < s.heap.length := hop.1
    have hget : s.heap[object]? = some s.heap[object] := List.getElem?_eq_getElem hlt
    refine ⟨(.ok, s.push { s.heap[object] with proto := some (prototypes type) }),
      yields_of_forall fun fuel => ?_⟩
    simp only [Prototypes.run, hget]
  | setProto object setval =>
    cases setval with
    | none => exact ⟨_, yields_of_forall fun fuel => rfl⟩
    | some value =>
      obtain ⟨r, n, hn⟩ := h.setPrototypeOf hop.1 (hop.2 value rfl)
      refine ⟨(r.1, { s with heap := r.2 }), n, fun fuel hfuel => ?_⟩
      simp only [Prototypes.run, hn fuel hfuel, Option.map_some]
  | _ => exact ⟨_, yields_of_forall fun fuel => rfl⟩

/-- A change of a link that is rejected leaves all links as they are. -/
theorem run_rejected {setval : Option (Option ℕ)}
    (hrun : run fuel s (.setProto object setval) = some (outcome, s')) (h : outcome ≠ .ok) :
    s' = s := by
  cases setval with
  | none =>
    cases hrun
    rfl
  | some value =>
    rw [run, Option.map_eq_some_iff] at hrun
    obtain ⟨⟨outcome', heap'⟩, hset, heq⟩ := hrun
    cases heq
    have hheap : heap' = s.heap := setPrototypeOf_rejected hset h
    rw [hheap]

/-- **Prototype chains end.** In every state that the operations lead to, the chain of every object
reaches null, so that lookups, enumerations and all operations end, and a change that is rejected
leaves every link as it was. -/
theorem chains_end (h : Reachable s) :
    (∀ object < s.heap.length, Ends s.heap object ∧
      (∀ (α : Type) (own : ℕ → Option α),
        ∃ r, Yields (fun fuel => objectPropertyQuery s.heap own fuel object) r) ∧
      ∀ (κ : Type) (own : ℕ → List κ) (has : ℕ → κ → Bool),
        ∃ r, Yields (fun fuel => enumerateObject s.heap own has object fuel object) r) ∧
    ∀ op : Op, op.Valid s → (∃ r, Yields (fun fuel => run fuel s op) r) ∧
      ∀ fuel outcome s', run fuel s op = some (outcome, s') → outcome ≠ .ok →
        ∀ object, s'.heap.link object = s.heap.link object := by
  have hsound := h.sound
  constructor
  · intro object hobject
    have hends := hsound.ends object hobject
    exact ⟨hends, fun α own => hends.follow own, fun κ own has =>
      hends.enumerateObject (.self object) own has⟩
  · intro op hop
    refine ⟨hsound.yields hop, fun fuel outcome s' hrun houtcome object => ?_⟩
    cases op with
    | setProto object' setval => rw [run_rejected hrun houtcome]
    | copy object' type =>
      rw [run] at hrun
      split at hrun
      · cases hrun
      · cases hrun
        exact absurd rfl houtcome
    | _ =>
      cases hrun
      exact absurd rfl houtcome

/-- `Object.create(Object.prototype)`, and an attempt to make it the prototype of
`Object.prototype`. -/
theorem chains_end_cyclic : (∀ object < 41, Ends ((init 0).push ⟨some 0, true⟩).heap object) ∧
    run 10 ((init 0).push ⟨some 0, true⟩) (.setProto 0 (some (some 40))) =
      some (.error, (init 0).push ⟨some 0, true⟩) := by
  have hlength : (init 0).heap.length = 40 := by decide
  have hvalid : Op.Valid (init 0) (.create (some 0)) := by
    intro p hp
    cases hp
    rw [hlength]
    decide
  have hreachable : Reachable ((init 0).push ⟨some 0, true⟩) :=
    .run (.init 0) hvalid (show run 0 (init 0) (.create (some 0)) = some (.ok, _) from rfl)
  have hends := (chains_end hreachable).1
  have hlength' : ((init 0).push ⟨some 0, true⟩).heap.length = 41 := by decide
  rw [hlength'] at hends
  exact ⟨fun object hobject => (hends object hobject).1, by rfl⟩

end Njs.Prototypes
