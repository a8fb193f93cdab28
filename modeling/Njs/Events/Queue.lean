import Njs.Result
import Mathlib.Algebra.Group.Nat.Defs
import Mathlib.Logic.Function.Basic
import Mathlib.Data.List.Basic

/-!
# Events and timers

The events of a VM: `njs_vm_add_event`, `njs_vm_post_event`, `njs_vm_del_event`, the timer
functions, and `njs_vm_run`, whose callbacks may perform any of these operations again. The
operations keep a history of what an observer sees.
-/

namespace Njs.Events

variable {F V : Type}

/-- An argument of a timer function, or of the function of an event. -/
inductive Value (F V : Type)
  | function (f : F)
  | other (v : V)
  deriving DecidableEq

/-- `njs_event_t`, but for the link of the queue. -/
structure Event (F V : Type) where
  /-- The function that is called. -/
  function : F
  /-- The block of arguments, or `NULL`. -/
  args : Option (List (Value F V))
  /-- The number of arguments. -/
  nargs : ℕ
  /-- Whether `host_event` is not `NULL`. -/
  hostEvent : Bool
  /-- Whether `destructor` is not `NULL`. -/
  destructor : Bool
  /-- The number of which `id` is the decimal text. -/
  id : ℕ
  /-- Whether the event is linked in the queue. -/
  posted : Bool
  /-- Whether the event is deleted when it is delivered. -/
  once : Bool
  deriving DecidableEq

/-- The arguments of the call of an event. Reading them from `NULL`, or behind their block,
is out of range. -/
def Event.callArgs (ev : Event F V) : Result (List (Value F V)) :=
  if ev.nargs = 0 then .ok []
  else
    match ev.args with
    | some args => if ev.nargs ≤ args.length then .ok (args.take ev.nargs) else .error .fault
    | none => .error .fault

/-- What an observer sees. Events are named by their addresses. -/
inductive Happening (F V : Type)
  /-- `njs_vm_add_event` returned an event. -/
  | added (e : ℕ) (function : F) (once : Bool)
  /-- `setTimeout` or `setImmediate` returned an id. -/
  | timer (e : ℕ) (function : F) (args : List (Value F V))
  /-- `njs_vm_post_event` returned without an error. -/
  | posted (e : ℕ) (args : List (Value F V))
  /-- The function of an event is called. -/
  | called (e : ℕ) (function : F) (args : List (Value F V))
  /-- `njs_vm_del_event` or `clearTimeout` was applied to an event. -/
  | deleted (e : ℕ)
  /-- The destructor is applied to the host event. -/
  | destroyed (e : ℕ)
  /-- `njs_vm_run` returned without an exception. -/
  | returned
  deriving DecidableEq

/-- What the VM is doing: the loop of `njs_vm_handle_events`, or the function of an event
that it called. At the bottom is the host. -/
inductive Control
  | loop
  | callback
  deriving DecidableEq

/-- The part of `njs_vm_t` that events use. -/
structure Vm (F V : Type) where
  /-- The events by their addresses. They are never freed. -/
  events : ℕ → Option (Event F V)
  /-- The number of addresses in use. -/
  allocated : ℕ
  /-- `events_hash`: the events by their ids. -/
  eventsHash : ℕ → Option ℕ
  /-- `posted_events`. -/
  postedEvents : List ℕ
  /-- `event_id`, a 32-bit counter. -/
  eventId : ℕ
  /-- The calls in progress, the innermost first. -/
  stack : List Control
  /-- What happened so far, the latest first. -/
  log : List (Happening F V)

/-- The value returned by an operation. -/
inductive Outcome
  | ok
  | id (n : ℕ)
  | undefined
  /-- `NULL` or `NJS_ERROR` without an exception. -/
  | failed
  | typeError (message : String)
  | internalError (message : String)
  | memoryError
  deriving DecidableEq

namespace Vm

/-- The VM before any event is added. -/
def initial : Vm F V :=
  { events := fun _ => none, allocated := 0, eventsHash := fun _ => none, postedEvents := [],
    eventId := 0, stack := [], log := [] }

/-- The history goes on. -/
def record (vm : Vm F V) (h : Happening F V) : Vm F V := { vm with log := h :: vm.log }

/-- The event at an address is written. -/
def write (vm : Vm F V) (e : ℕ) (ev : Event F V) : Vm F V :=
  { vm with events := Function.update vm.events e (some ev) }

/-- The event at an address. -/
def read (vm : Vm F V) (e : ℕ) : Result (Event F V) :=
  match vm.events e with
  | some ev => .ok ev
  | none => .error .fault

/-- `njs_queue_remove`. The link has to be in the queue. -/
def queueRemove (vm : Vm F V) (e : ℕ) : Result (Vm F V) :=
  if e ∈ vm.postedEvents then .ok { vm with postedEvents := vm.postedEvents.erase e }
  else .error .fault

/-- `njs_queue_insert_tail`. The link must not be in the queue. -/
def queueInsertTail (vm : Vm F V) (e : ℕ) : Result (Vm F V) :=
  if e ∈ vm.postedEvents then .error .fault
  else .ok { vm with postedEvents := vm.postedEvents ++ [e] }

/-- `njs_lvlhsh_delete` from `events_hash`. -/
def hashDelete (vm : Vm F V) (id : ℕ) : Vm F V :=
  { vm with eventsHash := Function.update vm.eventsHash id none }

end Vm

open Vm

/-- `njs_del_event` with `NJS_EVENT_RELEASE | NJS_EVENT_DELETE`, as it is always called. -/
def delEvent (vm : Vm F V) (e : ℕ) : Result (Vm F V) := do
  let ev ← vm.read e
  let vm := if ev.destructor && ev.hostEvent then vm.record (.destroyed e) else vm
  let ev := { ev with hostEvent := false }
  if ev.posted then
    let vm ← (vm.write e { ev with posted := false }).queueRemove e
    pure (vm.hashDelete ev.id)
  else pure ((vm.write e ev).hashDelete ev.id)

/-- `njs_add_event`, at a fresh address. `insert` says whether the hash finds the memory that
it needs for one more element. -/
def addEvent (vm : Vm F V) (ev : Event F V) (insert : Bool) : Result (Outcome × Vm F V) :=
  let e := vm.allocated
  let id := vm.eventId
  let vm := { vm with allocated := vm.allocated + 1, eventId := (vm.eventId + 1) % 2 ^ 32 }
  let vm := vm.write e { ev with id := id }
  if insert ∧ vm.eventsHash id = none then
    .ok (.id id, { vm with eventsHash := Function.update vm.eventsHash id (some e) })
  else do
    let vm ← delEvent vm e
    pure (.internalError "Failed to add event with id: %s", vm)

/-- The event that `njs_vm_add_event` fills in. -/
def newEvent (function : F) (once hostEvent destructor : Bool) : Event F V :=
  { function := function, args := none, nargs := 0, hostEvent := hostEvent,
    destructor := destructor, id := 0, posted := false, once := once }

/-- `njs_vm_add_event`. `memory` says whether the event can be allocated. -/
def vmAddEvent (vm : Vm F V) (function : F) (once hostEvent destructor memory insert : Bool) :
    Result (Outcome × Vm F V) :=
  if memory then do
    let (ret, next) ← addEvent vm (newEvent function once hostEvent destructor) insert
    match ret with
    | .id _ => pure (.ok, next.record (.added vm.allocated function once))
    | _ => pure (.failed, next)
  else .ok (.failed, vm)

/-- `njs_vm_post_event`. `memory` says whether the arguments can be allocated. -/
def vmPostEvent (vm : Vm F V) (e : ℕ) (args : List (Value F V)) (memory : Bool) :
    Result (Outcome × Vm F V) := do
  let ev ← vm.read e
  if args.length ≠ 0 ∧ ¬ ev.posted ∧ ¬ memory then
    pure (.failed, vm.write e { ev with nargs := args.length, args := none })
  else
    let ev := if args.length ≠ 0 ∧ ¬ ev.posted then
      { ev with nargs := args.length, args := some args } else ev
    let vm := vm.write e ev
    if ¬ ev.posted then
      let vm ← (vm.write e { ev with posted := true }).queueInsertTail e
      pure (.ok, vm.record (.posted e args))
    else pure (.ok, vm.record (.posted e args))

/-- `njs_vm_del_event`. -/
def vmDelEvent (vm : Vm F V) (e : ℕ) : Result (Outcome × Vm F V) := do
  let vm ← delEvent vm e
  pure (.undefined, vm.record (.deleted e))

/-- What the environment of `njs_set_timer` provides. -/
structure Host where
  /-- Whether there are operations at all. -/
  ops : Bool
  /-- Whether the event can be allocated. -/
  memory : Bool
  /-- Whether the arguments can be allocated. -/
  argsMemory : Bool
  /-- Whether the `set_timer` operation returns a host event. -/
  setTimer : Bool
  /-- Whether there is a `clear_timer` operation. -/
  clearTimer : Bool
  /-- Whether the hash finds the memory that it needs. -/
  insert : Bool

/-- The event that `njs_set_timer` fills in. Without arguments, the pointer to them is not
set, and not read either. -/
def timerEvent (function : F) (args : List (Value F V)) (destructor : Bool) : Event F V :=
  { function := function, args := if args.length ≠ 0 then some args else none,
    nargs := args.length, hostEvent := true, destructor := destructor, id := 0, posted := false,
    once := true }

/-- `njs_set_timer`; `args` has the arguments behind `this`. The delay, which is handed to
the host only, is left out. -/
def setTimer (vm : Vm F V) (args : List (Value F V)) (immediate : Bool) (host : Host) :
    Result (Outcome × Vm F V) :=
  match args with
  | [] => .ok (.typeError "too few arguments", vm)
  | .other _ :: _ => .ok (.typeError "first arg must be a function", vm)
  | .function function :: rest =>
    if ¬ host.ops then .ok (.internalError "not supported by host environment", vm)
    else if ¬ host.memory then .ok (.memoryError, vm)
    else
      let args := if immediate then rest else rest.drop 1
      if args.length ≠ 0 ∧ ¬ host.argsMemory then .ok (.memoryError, vm)
      else if ¬ host.setTimer then .ok (.internalError "set_timer() failed", vm)
      else do
        let (ret, next) ← addEvent vm (timerEvent function args host.clearTimer) host.insert
        match ret with
        | .id _ => pure (ret, next.record (.timer vm.allocated function args))
        | _ => pure (ret, next)

/-- `njs_set_timeout`. -/
def setTimeout (vm : Vm F V) (args : List (Value F V)) (host : Host) : Result (Outcome × Vm F V) :=
  setTimer vm args false host

/-- `njs_set_immediate`. -/
def setImmediate (vm : Vm F V) (args : List (Value F V)) (host : Host) :
    Result (Outcome × Vm F V) :=
  setTimer vm args true host

/-- `njs_clear_timeout`, with the number that is passed, if any, as an id. -/
def clearTimeout (vm : Vm F V) (id : Option ℕ) : Result (Outcome × Vm F V) :=
  match id with
  | none => .ok (.undefined, vm)
  | some id =>
    match vm.eventsHash id with
    | none => .ok (.undefined, vm)
    | some e => do
      let vm ← delEvent vm e
      pure (.undefined, vm.record (.deleted e))

/-- `njs_vm_run` up to the loop of `njs_vm_handle_events`. -/
def vmRun (vm : Vm F V) : Vm F V := { vm with stack := .loop :: vm.stack }

/-- The loop body of `njs_vm_handle_events` up to the call of the function, or the end of the
loop and of `njs_vm_run`. -/
def handleEvent (vm : Vm F V) : Result (Vm F V) :=
  match vm.postedEvents with
  | [] => .ok ({ vm with stack := vm.stack.tail }.record .returned)
  | e :: _ => do
    let ev ← vm.read e
    let vm ←
      if ev.once then delEvent vm e
      else (vm.write e { ev with posted := false }).queueRemove e
    let args ← ev.callArgs
    pure ({ vm with stack := .callback :: vm.stack }.record (.called e ev.function args))

/-- The steps of the host, of a callback, and of the loop. -/
inductive Action (F V : Type)
  | addEvent (function : F) (once hostEvent destructor memory insert : Bool)
  | setTimeout (args : List (Value F V)) (host : Host)
  | setImmediate (args : List (Value F V)) (host : Host)
  | post (e : ℕ) (args : List (Value F V)) (memory : Bool)
  | delEvent (e : ℕ)
  | clearTimeout (id : Option ℕ)
  | run
  /-- The loop goes round. -/
  | loop
  /-- A callback returns. -/
  | finish
  /-- A callback throws, which ends the loop that called it. -/
  | throw

/-- An event is in the hash. -/
def Live (vm : Vm F V) (e : ℕ) : Prop :=
  ∃ ev, vm.events e = some ev ∧ vm.eventsHash ev.id = some e

instance (vm : Vm F V) (e : ℕ) : Decidable (Live vm e) :=
  decidable_of_iff ((vm.events e).any (fun ev => vm.eventsHash ev.id = some e) = true) (by
    simp [Live, Option.any_eq_true])

/-- Which steps there are: the loop goes round when it is in control, and anything else is
done by the host or a callback. Only an event that is not deleted is posted. -/
def Enabled (vm : Vm F V) : Action F V → Prop
  | .loop => vm.stack.head? = some .loop
  | .finish => vm.stack.head? = some .callback
  | .throw => vm.stack.head? = some .callback
  | .post e _ _ => vm.stack.head? ≠ some .loop ∧ Live vm e
  | .delEvent e => vm.stack.head? ≠ some .loop ∧ vm.events e ≠ none
  | _ => vm.stack.head? ≠ some .loop

instance (vm : Vm F V) (a : Action F V) : Decidable (Enabled vm a) :=
  match a with
  | .loop => inferInstanceAs (Decidable (_ = _))
  | .finish => inferInstanceAs (Decidable (_ = _))
  | .throw => inferInstanceAs (Decidable (_ = _))
  | .post _ _ _ => inferInstanceAs (Decidable (_ ∧ _))
  | .delEvent e => inferInstanceAs (Decidable (_ ∧ vm.events e ≠ none))
  | .addEvent .. => inferInstanceAs (Decidable (_ ≠ _))
  | .setTimeout .. => inferInstanceAs (Decidable (_ ≠ _))
  | .setImmediate .. => inferInstanceAs (Decidable (_ ≠ _))
  | .clearTimeout _ => inferInstanceAs (Decidable (_ ≠ _))
  | .run => inferInstanceAs (Decidable (_ ≠ _))

/-- The VM after a step. -/
def perform (vm : Vm F V) : Action F V → Result (Vm F V)
  | .addEvent function once hostEvent destructor memory insert =>
    Prod.snd <$> vmAddEvent vm function once hostEvent destructor memory insert
  | .setTimeout args host => Prod.snd <$> setTimeout vm args host
  | .setImmediate args host => Prod.snd <$> setImmediate vm args host
  | .post e args memory => Prod.snd <$> vmPostEvent vm e args memory
  | .delEvent e => Prod.snd <$> vmDelEvent vm e
  | .clearTimeout id => Prod.snd <$> clearTimeout vm id
  | .run => .ok (vmRun vm)
  | .loop => handleEvent vm
  | .finish => .ok { vm with stack := vm.stack.drop 1 }
  | .throw => .ok { vm with stack := vm.stack.drop 2 }

end Njs.Events
