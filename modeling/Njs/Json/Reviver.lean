import Njs.Json.Text
import Njs.Objects.Property

/-!
# Reviving a parsed value

`njs_json_parse_iterator` walks a parsed value with a stack of states, one for each array or
object on the way, and calls the reviver for every element and property. The reviver is a
function of the script: what it does to the arrays and objects is arbitrary, except that a
property that is deleted stays in the hash.
-/

namespace Njs.Json

open Njs.Objects (Name Value Error)

/-- Where the elements of an array are: `length` values from `start` on in a block. -/
structure Storage where
  data : ℕ
  start : ℕ
  elements : List (Option Value)

/-- An array or another object, with the properties in its hash by their names. -/
structure Container where
  /-- The elements, if it is an array. -/
  array : Option Storage
  hash : AList fun _ : Name => ℕ

/-- A property that is in a hash. -/
structure Slot where
  whiteout : Bool
  value : Option Value

/-- The objects that the values refer to, and the properties that the hashes refer to. -/
structure Heap where
  container : Value → Option Container
  slot : ℕ → Slot

/-- The elements of an array. -/
def Heap.storage (heap : Heap) (v : Value) : Option Storage :=
  (heap.container v).bind Container.array

/-- `njs_lvlhsh_find` in the hash of an object. -/
def Heap.find (heap : Heap) (v : Value) (name : Name) : Option ℕ :=
  (heap.container v).bind fun c => c.hash.lookup name

/-- Arrays stay arrays, and properties stay in the hashes: a deletion leaves a white-out. -/
structure Heap.Keeps (heap heap' : Heap) : Prop where
  storage : ∀ v, (heap.storage v).isSome = true → (heap'.storage v).isSome = true
  find : ∀ v name p, heap.find v name = some p → heap'.find v name = some p

/-- What the script does when it is called with `this`, a key and a value. Its own state is
part of the arguments and of the result. -/
structure Reviver (σ : Type) where
  apply : σ → Heap → Value → Name → Option Value → Except Error (Option Value) × σ × Heap
  keeps : ∀ script (heap : Heap) this key value,
    heap.Keeps (apply script heap this key value).2.2

/-- `njs_json_state_t`. -/
structure State where
  value : Value
  index : ℕ
  /-- The keys of an object, or nothing for an array. -/
  keys : Option (List Name)
  prop : Option ℕ

/-- The state of `njs_json_parse_iterator`. The last state that was pushed is the first. -/
structure Machine (σ : Type) where
  script : σ
  heap : Heap
  states : List State
  retval : Option Value

/-- What the iterator uses of the engine. -/
structure Engine (σ : Type) where
  reviver : Reviver σ
  /-- `njs_value_own_enumerate` for keys. -/
  ownEnumerate : Heap → Value → Option (List Name)

variable {σ : Type} (engine : Engine σ)

/-- What an iteration of the loop does. -/
inductive Next (σ : Type)
  | running (m : Machine σ)
  | returned (v : Option Value)
  | error (e : Error)
  /-- An access by way of a pointer that is `NULL`, or to an element or a property that is
  not in the container. -/
  | fault

/-- `njs_json_is_non_empty`. -/
def isNonEmpty (heap : Heap) (v : Option Value) : Bool :=
  match v.bind heap.container with
  | some c => c.hash.entries ≠ [] || c.array.any fun storage => storage.elements ≠ []
  | none => false

/-- `njs_json_push_parse_state`, after which the loop goes on. Any of its errors is reported as
a memory error. -/
def pushParseState (m : Machine σ) (v : Value) : Next σ :=
  if m.states.length ≥ maxDepth then .error (.exception .memoryError)
  else
    match m.heap.storage v with
    | some _ => .running { m with states := ⟨v, 0, none, none⟩ :: m.states }
    | none =>
      match engine.ownEnumerate m.heap v with
      | some keys => .running { m with states := ⟨v, 0, some keys, none⟩ :: m.states }
      | none => .error (.exception .memoryError)

/-- The property that the reviver was called for becomes what it returned, or a white-out. -/
def Heap.setProperty (heap : Heap) (p : ℕ) (retval : Option Value) : Heap :=
  { heap with
    slot := Function.update heap.slot p
      (if retval = some .undefined then { heap.slot p with whiteout := true }
        else { heap.slot p with value := retval }) }

/-- The heap after the storage of an array has changed. -/
def Heap.mapArray (heap : Heap) (v : Value) (f : Storage → Storage) : Heap :=
  { heap with
    container := Function.update heap.container v <|
      (heap.container v).map fun c => { c with array := c.array.map f } }

/-- The value at an index of a block becomes what the reviver returned. -/
def Heap.setElement (heap : Heap) (v : Value) (i : ℕ) (retval : Option Value) : Heap :=
  heap.mapArray v fun storage =>
    { storage with elements := storage.elements.set (i - storage.start) retval }

/-- The property is in the hash of the object. -/
def Heap.hasSlot (heap : Heap) (v : Value) (p : ℕ) : Bool :=
  match heap.container v with
  | some c => c.hash.entries.any fun entry => entry.2 = p
  | none => false

/-- The value at an index of a block is an element of the array. -/
def Heap.hasElement (heap : Heap) (v : Value) (data i : ℕ) : Bool :=
  match heap.storage v with
  | some storage => storage.data = data && storage.start ≤ i &&
      i < storage.start + storage.elements.length
  | none => false

/-- `njs_json_parse_iterator_call` for a property. -/
def callProperty (m : Machine σ) (state : State) (states : List State) (keys : List Name) :
    Next σ :=
  match keys[state.index]?, state.prop with
  | some key, some p =>
    if !m.heap.hasSlot state.value p then .fault
    else
      match engine.reviver.apply m.script m.heap state.value key (m.heap.slot p).value with
      | (.error e, _, _) => .error e
      | (.ok retval, script, heap) =>
        if !heap.hasSlot state.value p then .fault
        else .running ⟨script, heap.setProperty p retval,
          { state with index := state.index + 1 } :: states, retval⟩
  | _, _ => .fault

/-- `njs_json_parse_iterator_call` for an element. -/
def callElement (m : Machine σ) (state : State) (states : List State) : Next σ :=
  match m.heap.storage state.value with
  | some storage =>
    match storage.elements[state.index]? with
    | some v =>
      match engine.reviver.apply m.script m.heap state.value (decimal state.index) v with
      | (.error e, _, _) => .error e
      | (.ok retval, script, heap) =>
        if !heap.hasElement state.value storage.data (storage.start + state.index) then .fault
        else .running ⟨script, heap.setElement state.value (storage.start + state.index) retval,
          { state with index := state.index + 1 } :: states, retval⟩
    | none => .fault
  | none => .fault

/-- `njs_json_parse_iterator_call`. -/
def parseIteratorCall (m : Machine σ) (state : State) (states : List State) : Next σ :=
  match state.keys with
  | some keys => callProperty engine m state states keys
  | none => callElement engine m state states

/-- `njs_json_pop_parse_state`. -/
def popParseState : List State → Option (State × List State)
  | _ :: state :: states => some (state, states)
  | _ => none

/-- What an iteration of the loop comes to before it calls the reviver. -/
inductive Stage
  /-- The property is not there any more. -/
  | skip (state : State)
  | push (state : State) (v : Value)
  | call (state : State) (states : List State)
  | done
  /-- A state that is `NULL` is used. -/
  | fault

/-- The body of the loop for an object. -/
def objectStage (heap : Heap) (state : State) (states : List State) (keys : List Name) : Stage :=
  match keys[state.index]? with
  | some key =>
    match heap.find state.value key with
    | none => .skip { state with index := state.index + 1 }
    | some p =>
      if (heap.slot p).whiteout then .skip { state with index := state.index + 1 }
      else
        match (heap.slot p).value with
        | some v =>
          if isNonEmpty heap (some v) then .push { state with prop := some p } v
          else .call { state with prop := some p } states
        | none => .call { state with prop := some p } states
  | none =>
    match popParseState (state :: states) with
    | some (state, states) => .call state states
    | none => .done

/-- The body of the loop for an array. -/
def arrayStage (heap : Heap) (state : State) (states : List State) : Stage :=
  match (heap.storage state.value).bind fun storage => storage.elements[state.index]? with
  | some (some v) =>
    if isNonEmpty heap (some v) then .push state v else .call state states
  | some none => .call state states
  | none =>
    match popParseState (state :: states) with
    | some (state, states) => .call state states
    | none => .fault

/-- The body of the loop of `njs_json_parse_iterator`, up to the call. -/
def stage (m : Machine σ) : Stage :=
  match m.states with
  | [] => .fault
  | state :: states =>
    match state.keys with
    | some keys => objectStage m.heap state states keys
    | none => arrayStage m.heap state states

/-- The states below the current one. -/
def Machine.below (m : Machine σ) : List State := m.states.tail

/-- An iteration of the loop of `njs_json_parse_iterator`. -/
def step (m : Machine σ) : Next σ :=
  match stage m with
  | .skip state => .running { m with states := state :: m.below }
  | .push state v => pushParseState engine { m with states := state :: m.below } v
  | .call state states => parseIteratorCall engine m state states
  | .done => .returned m.retval
  | .fault => .fault

/-- So many iterations. -/
def iterate : ℕ → Machine σ → Next σ
  | 0, m => .running m
  | n + 1, m =>
    match step engine m with
    | .running m => iterate n m
    | result => result

/-- `njs_json_parse_iterator`, before its loop: a parsed value is revived as a property of an
object of its own. -/
def start (script : σ) (heap : Heap) (wrapper : Value) (keys : List Name) : Machine σ where
  script := script
  heap := heap
  states := [⟨wrapper, 0, some keys, none⟩]
  retval := none

end Njs.Json
