import Mathlib.Order.CompletePartialOrder
import Njs.Json.Acceptance
import Njs.Json.Reviver

/-!
# The order of revival

ECMAScript revives a parsed value by a recursion over its arrays and objects, in which the
reviver is called for a property once all that is inside its value is revived. The calls of a
reviver that changes nothing by itself are recorded with all that it could see.
-/

namespace Njs.Json

open Njs.Objects (Name Value Error)

/-! ## Revivers -/

/-- The values that are no objects. -/
def isPrimitive : Value → Bool
  | .function _ | .object _ => false
  | _ => true

/-- Between two heaps, the arrays and objects of the first one have not changed, except those that
are numbered in a set: these have kept the names of their properties. -/
structure Heap.Frame (changed : Set ℕ) (heap heap' : Heap) : Prop where
  container : ∀ v c, heap.container v = some c → (∀ o ∈ changed, v ≠ .object o) →
    heap'.container v = some c
  primitive : ∀ v, isPrimitive v = true → heap'.container v = heap.container v
  hash : ∀ v c, heap.container v = some c →
    ∃ c', heap'.container v = some c' ∧ c'.hash = c.hash
  slot : ∀ v c name p, heap.container v = some c → c.hash.lookup name = some p → p ∉ changed →
    heap'.slot p = heap.slot p

/-- A function of the script that makes new arrays and objects at most. -/
structure PureReviver where
  apply : Heap → Value → Name → Option Value → Value × Heap
  unchanged : ∀ heap this key v, Heap.Frame ∅ heap (apply heap this key v).2

/-- A call of the reviver: what it could see, its arguments and its result. -/
structure ReviverCall where
  heap : Heap
  this : Value
  key : Name
  value : Option Value
  result : Value

theorem Heap.Frame.keeps {heap heap' : Heap} (h : heap.Frame ∅ heap') : heap.Keeps heap' := by
  constructor
  · intro v hv
    unfold Heap.storage at hv ⊢
    cases hc : heap.container v with
    | none =>
      rw [hc] at hv
      cases hv
    | some c =>
      rw [hc] at hv
      rw [h.container v c hc fun _ ho => ho.elim]
      exact hv
  · intro v name p hp
    unfold Heap.find at hp ⊢
    cases hc : heap.container v with
    | none =>
      rw [hc] at hp
      cases hp
    | some c =>
      rw [hc] at hp
      rwa [h.container v c hc fun _ ho => ho.elim]

/-- The reviver of the iterator. Its calls are recorded in the state of the script. -/
def PureReviver.reviver (f : PureReviver) : Reviver (List ReviverCall) where
  apply calls heap this key v :=
    (.ok (some (f.apply heap this key v).1),
      calls ++ [⟨heap, this, key, v, (f.apply heap this key v).1⟩], (f.apply heap this key v).2)
  keeps _ heap this key v := (f.unchanged heap this key v).keeps

/-- The order in which the properties of a hash are visited. -/
structure VisitOrder where
  visit : List Name → List Name
  perm : ∀ names, (visit names).Perm names

/-- The names of the properties that are not deleted, as `Object.keys()` lists them: all are
enumerable. -/
def VisitOrder.keys (order : VisitOrder) (heap : Heap) (c : Container) : List Name :=
  (order.visit c.hash.keys).filter fun name =>
    (c.hash.lookup name).any fun p => !(heap.slot p).whiteout

/-- What the iterator uses of the engine. -/
def PureReviver.engine (f : PureReviver) (order : VisitOrder) : Engine (List ReviverCall) where
  reviver := f.reviver
  ownEnumerate heap v := (heap.container v).map (order.keys heap)

/-! ## The recursion -/

/-- A property of an array or of another object. -/
inductive Place
  | element (i : ℕ)
  | property (name : Name)
  deriving DecidableEq

/-- The key of a property. -/
def Place.key : Place → Name
  | element i => decimal i
  | property name => name

/-- The value of a property. -/
def Heap.get (heap : Heap) (holder : Value) : Place → Option Value
  | .element i => (heap.storage holder).bind fun storage => (storage.elements[i]?).join
  | .property name =>
    (heap.find holder name).bind fun p =>
      if (heap.slot p).whiteout then none else (heap.slot p).value

/-- An element becomes what the reviver returned, or nothing if that is `undefined` and `holes`
says so. -/
def Storage.put (holes : Bool) (i : ℕ) (result : Value) (storage : Storage) : Storage :=
  { storage with
    elements :=
      storage.elements.set i (if holes ∧ result = .undefined then none else some result) }

/-- The property becomes what the reviver returned. If that is `undefined`, a property of an
object is deleted, and an element if `holes` says so. -/
def Heap.store (holes : Bool) (heap : Heap) (holder : Value) (result : Value) : Place → Heap
  | .element i => heap.mapArray holder (Storage.put holes i result)
  | .property name =>
    match heap.find holder name with
    | some p => heap.setProperty p (some result)
    | none => heap

/-- The properties that are revived in a value. -/
def Heap.places (heap : Heap) (order : VisitOrder) (v : Value) : List Place :=
  match heap.container v with
  | some c =>
    match c.array with
    | some storage => (List.range storage.elements.length).map .element
    | none => (order.keys heap c).map .property
  | none => []

/-- The heap, and the calls so far. -/
structure Trace where
  heap : Heap
  calls : List ReviverCall

/-- The call for a property. -/
def PureReviver.call (f : PureReviver) (holder : Value) (place : Place) (v : Option Value)
    (s : Trace) : Value × Trace :=
  let r := f.apply s.heap holder place.key v
  (r.1, ⟨r.2, s.calls ++ [⟨s.heap, holder, place.key, v, r.1⟩]⟩)

/-- The properties of a value are revived one after another. -/
def reviveAll (holes : Bool) (revive : Place → Trace → Option (Value × Trace)) (v : Value) :
    List Place → Trace → Option Trace
  | [], s => some s
  | place :: places, s =>
    (revive place s).bind fun r =>
      reviveAll holes revive v places ⟨r.2.heap.store holes v r.1 place, r.2.calls⟩

/-- `InternalizeJSONProperty` for a property of a holder: the value of the last call. The depth
of the recursion is bounded. -/
def internalize (f : PureReviver) (order : VisitOrder) (holes : Bool) :
    ℕ → Value → Place → Trace → Option (Value × Trace)
  | 0, _, _, _ => none
  | depth + 1, holder, place, s =>
    match s.heap.get holder place with
    | some v =>
      (reviveAll holes (internalize f order holes depth v) v (s.heap.places order v) s).map
        (f.call holder place (some v))
    | none => some (f.call holder place none s)

/-! ## Parsed values -/

/-- The value of a leaf. -/
def Tree.scalar : Tree → Option Value
  | null => some .null
  | boolean b => some (.boolean b)
  | number n => some (.number n)
  | string s => some (.string s)
  | array _ | object _ => none

/-- A part of an array or an object. -/
def Tree.child : Tree → Place → Option Tree
  | array elements, .element i => elements[i]?
  | object members, .property name => (members.find? fun m => m.1 = name).map Prod.snd
  | _, _ => none

/-- The elements of an array, or the names of an object. -/
def Tree.Shapes : Tree → Container → Prop
  | array elements, c =>
    c.hash = ∅ ∧ ∃ storage, c.array = some storage ∧ storage.elements.length = elements.length
  | object members, c => c.array = none ∧ c.hash.keys.Perm (members.map Prod.fst)
  | _, _ => False

/-- An array or object that was made for a part of a text, in a set of arrays, objects and
properties. What is inside each of its properties is in a set that is apart from those of the
others. -/
structure TreeNode (heap : Heap) (owned : Set ℕ) (o : ℕ) (inside : Place → Set ℕ) (t : Tree) :
    Prop where
  shapes : ∃ c, heap.container (.object o) = some c ∧ t.Shapes c
  mem : o ∈ owned
  sub : ∀ place, inside place ⊆ owned
  apart : ∀ place, o ∉ inside place
  disjoint : ∀ place place', place ≠ place' → Disjoint (inside place) (inside place')
  slots : ∀ name p, heap.find (.object o) name = some p → p ∈ owned ∧
    (∀ place, p ∉ inside place) ∧ ∀ name', heap.find (.object o) name' = some p → name' = name

/-- A property is there, and is not deleted. -/
def Heap.Live (heap : Heap) (v : Value) : Place → Prop
  | .element i => ∃ storage, heap.storage v = some storage ∧ i < storage.elements.length
  | .property name => ∃ p, heap.find v name = some p ∧ (heap.slot p).whiteout = false

/-- A value of the heap is that of a text, nested at most so deep: its arrays, objects and
properties are new and are numbered in a set. -/
def Holds (heap : Heap) : ℕ → Set ℕ → Option Value → Tree → Prop
  | 0, _, v, t => ∃ x, t.scalar = some x ∧ v = some x ∧ heap.container x = none
  | depth + 1, owned, v, t =>
    (∃ x, t.scalar = some x ∧ v = some x ∧ heap.container x = none) ∨
      ∃ o inside, v = some (.object o) ∧ TreeNode heap owned o inside t ∧
        ∀ place t', t.child place = some t' → heap.Live (.object o) place ∧
          Holds heap depth (inside place) (heap.get (.object o) place) t'

/-! ## The iterator -/

/-- What `njs_json_parse` returns for a value with a reviver, and the calls of the reviver. The
value is the property with an empty key of the wrapper. -/
def Revives (f : PureReviver) (order : VisitOrder) (heap : Heap) (wrapper : Value)
    (result : Option Value) (calls : List ReviverCall) : Prop :=
  match (heap.get wrapper (.property [])).bind heap.container with
  | some _ => ∃ n m, iterate (f.engine order) n (start [] heap wrapper [[]]) = .running m ∧
      step (f.engine order) m = .returned result ∧ m.script = calls
  | none => result = heap.get wrapper (.property []) ∧ calls = []

/-- A parsed value is revived as it should be: the reviver is called as often, in the same order
and with the same arguments, each time with the same arrays and objects, and the result is that
of the last call. -/
def RevivedRight (f : PureReviver) (order : VisitOrder) (heap : Heap) (wrapper : Value) : Prop :=
  ∃ result s, internalize f order true maxDepth wrapper (.property []) ⟨heap, []⟩ =
    some (result, s) ∧ Revives f order heap wrapper (some result) s.calls

/-- A call for an element of an array. -/
def ReviverCall.isElement (call : ReviverCall) : Bool := (call.heap.storage call.this).isSome

/-- No call for an element of an array returns `undefined`. -/
def KeepsElements (f : PureReviver) (order : VisitOrder) (heap : Heap) (wrapper : Value) : Prop :=
  ∀ result s, internalize f order true maxDepth wrapper (.property []) ⟨heap, []⟩ =
    some (result, s) → ∀ call ∈ s.calls, call.isElement = true → call.result ≠ .undefined

end Njs.Json
