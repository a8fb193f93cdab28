import Njs.Events.Queue

/-!
# Histories of events

What the operations on events are for, in terms of what an observer sees: every posting of
an event is one call of its function, in order, unless the event is deleted before.
-/

namespace Njs.Events

variable {F V : Type}

/-- The arguments that a timer was set with. -/
def timerArgs? : List (Happening F V) → ℕ → Option (List (Value F V))
  | [], _ => none
  | .timer e' _ args :: before, e => if e' = e then some args else timerArgs? before e
  | _ :: before, e => timerArgs? before e

/-- The arguments that a posting asks for: those of the posting, or those that the timer was
set with. -/
def expectedArgs (before : List (Happening F V)) (e : ℕ) (args : List (Value F V)) :
    List (Value F V) :=
  (timerArgs? before e).getD args

/-- The postings that were neither called nor deleted, the oldest first. -/
def pending : List (Happening F V) → List (ℕ × List (Value F V))
  | [] => []
  | .posted e args :: before =>
    if e ∈ (pending before).map Prod.fst then pending before
    else pending before ++ [(e, expectedArgs before e args)]
  | .called e _ _ :: before => (pending before).filter fun p => p.1 ≠ e
  | .deleted e :: before => (pending before).filter fun p => p.1 ≠ e
  | _ :: before => pending before

/-- An event was made with a function, to be called once or repeatedly. -/
def MadeWith (before : List (Happening F V)) (e : ℕ) (function : F) (once : Bool) : Prop :=
  .added e function once ∈ before ∨ (once = true ∧ ∃ args, .timer e function args ∈ before)

/-- What may happen after a history. A call is that of the oldest posting, with its arguments,
and of an event that was not deleted, or called if it is to be called once; the destructor is
applied for the first time; and `njs_vm_run` returns when there are no postings left. -/
def MayHappen : Happening F V → List (Happening F V) → Prop
  | .called e function args, before =>
    (pending before).head? = some (e, args) ∧ .deleted e ∉ before ∧
      ∃ once, MadeWith before e function once ∧
        (once = true → ∀ function' args', .called e function' args' ∉ before)
  | .destroyed e, before => .destroyed e ∉ before
  | .returned, before => pending before = []
  | _, _ => True

/-- Everything in a history may happen where it does. -/
def Lawful (log : List (Happening F V)) : Prop :=
  ∀ h before, h :: before <:+ log → MayHappen h before

theorem lawful_nil : Lawful ([] : List (Happening F V)) := by
  intro h before hsuffix
  simp at hsuffix

theorem Lawful.cons {log : List (Happening F V)} {h : Happening F V} (hlog : Lawful log)
    (hmay : MayHappen h log) : Lawful (h :: log) := by
  intro h' before hsuffix
  rcases List.suffix_cons_iff.mp hsuffix with heq | hsuffix
  · obtain ⟨rfl, rfl⟩ := List.cons.inj heq
    exact hmay
  · exact hlog h' before hsuffix

/-- The queue of a VM is what its events and its history say: the live events whose flag is
set, each once, in the order of the postings. -/
structure QueueAgrees (vm : Vm F V) : Prop where
  nodup : vm.postedEvents.Nodup
  mem_iff : ∀ e, e ∈ vm.postedEvents ↔
    ∃ ev, vm.events e = some ev ∧ vm.eventsHash ev.id = some e ∧ ev.posted = true
  pending_eq : (pending vm.log).map Prod.fst = vm.postedEvents

/-- A posting that does not depend on what an earlier one left behind. For an event that is
not posted yet: a timer is posted without arguments, or with the same ones again; another
event with some arguments, or when none are stored. -/
def Posting (vm : Vm F V) (e : ℕ) (args : List (Value F V)) (memory : Bool) : Prop :=
  ∀ ev, vm.events e = some ev → ev.posted = false →
    match timerArgs? vm.log e with
    | some given => args = [] ∨ (args = given ∧ memory = true)
    | none => args ≠ [] ∨ ev.nargs = 0

instance [DecidableEq F] [DecidableEq V] (vm : Vm F V) (e : ℕ) (args : List (Value F V))
    (memory : Bool) : Decidable (Posting vm e args memory) :=
  decidable_of_iff (∀ ev ∈ vm.events e, ev.posted = false →
    (timerArgs? vm.log e = none ∧ (args ≠ [] ∨ ev.nargs = 0)) ∨
      ∃ given ∈ timerArgs? vm.log e, args = [] ∨ (args = given ∧ memory = true)) (by
    unfold Posting
    refine forall_congr' fun ev => forall_congr' fun _ => forall_congr' fun _ => ?_
    cases timerArgs? vm.log e <;> simp)

/-- The condition on the steps of a run. -/
def Renewed (vm : Vm F V) : Action F V → Prop
  | .post e args memory => Posting vm e args memory
  | _ => True

instance [DecidableEq F] [DecidableEq V] (vm : Vm F V) (a : Action F V) :
    Decidable (Renewed vm a) :=
  match a with
  | .post e args memory => inferInstanceAs (Decidable (Posting vm e args memory))
  | .addEvent .. | .setTimeout .. | .setImmediate .. | .delEvent .. | .clearTimeout .. | .run
  | .loop | .finish | .throw => inferInstanceAs (Decidable True)

/-- The states of the VM in runs that add fewer than 2^32 events, with a condition on the
steps. -/
inductive Run (Condition : Vm F V → Action F V → Prop) : Vm F V → Prop
  | initial : Run Condition Vm.initial
  | step {vm vm' : Vm F V} (a : Action F V) (h : Run Condition vm) (henabled : Enabled vm a)
      (hcond : Condition vm a) (hperform : perform vm a = .ok vm')
      (hbound : vm'.allocated < 2 ^ 32) : Run Condition vm'

/-- The state after some steps, if there are such steps and they meet the condition. -/
def runFrom (Condition : Vm F V → Action F V → Prop) [∀ vm a, Decidable (Condition vm a)]
    (vm : Vm F V) : List (Action F V) → Option (Vm F V)
  | [] => some vm
  | a :: actions =>
    if Enabled vm a ∧ Condition vm a then
      match perform vm a with
      | .ok next => if next.allocated < 2 ^ 32 then runFrom Condition next actions else none
      | .error _ => none
    else none

theorem Run.runFrom {Condition : Vm F V → Action F V → Prop} [∀ vm a, Decidable (Condition vm a)]
    {vm vm' : Vm F V} {actions : List (Action F V)} (h : Run Condition vm)
    (hrun : Events.runFrom Condition vm actions = some vm') : Run Condition vm' := by
  induction actions generalizing vm with
  | nil =>
    obtain rfl := Option.some_inj.mp hrun
    exact h
  | cons a actions ih =>
    rw [Events.runFrom] at hrun
    split_ifs at hrun with hstep
    split at hrun
    · rename_i next hnext
      split_ifs at hrun with hbound
      exact ih (h.step a hstep.1 hstep.2 hnext hbound) hrun
    · cases hrun

/-! ## Freshness and membership -/

/-- A happening is about an event. -/
def Happening.About : Happening F V → ℕ → Prop
  | .added e' _ _, e => e' = e
  | .timer e' _ _, e => e' = e
  | .posted e' _, e => e' = e
  | .called e' _ _, e => e' = e
  | .deleted e', e => e' = e
  | .destroyed e', e => e' = e
  | .returned, _ => False

theorem timerArgs?_eq_none {log : List (Happening F V)} {e : ℕ}
    (h : ∀ x ∈ log, ¬ x.About e) : timerArgs? log e = none := by
  induction log with
  | nil => rfl
  | cons x log ih =>
    have hrest := ih fun y hy => h y (List.mem_cons_of_mem _ hy)
    have hx := h x List.mem_cons_self
    cases x with
    | timer e' function args => rw [timerArgs?, if_neg (show ¬ e' = e from hx), hrest]
    | _ => exact hrest

theorem mem_pending_fst {log : List (Happening F V)} {e : ℕ}
    (h : e ∈ (pending log).map Prod.fst) : ∃ x ∈ log, x.About e := by
  induction log with
  | nil => simp [pending] at h
  | cons x log ih =>
    have hrest : e ∈ (pending log).map Prod.fst → ∃ y ∈ x :: log, y.About e := by
      intro hmem
      obtain ⟨y, hy, habout⟩ := ih hmem
      exact ⟨y, List.mem_cons_of_mem _ hy, habout⟩
    cases x with
    | posted e' args =>
      rw [pending] at h
      split_ifs at h with hin
      · exact hrest h
      · rw [List.map_append, List.mem_append] at h
        rcases h with h | h
        · exact hrest h
        · exact ⟨_, List.mem_cons_self, (by simpa using h : e = e').symm⟩
    | called e' function args =>
      obtain ⟨p, hp, rfl⟩ := List.mem_map.mp h
      exact hrest (List.mem_map_of_mem (List.mem_filter.mp hp).1)
    | deleted e' =>
      obtain ⟨p, hp, rfl⟩ := List.mem_map.mp h
      exact hrest (List.mem_map_of_mem (List.mem_filter.mp hp).1)
    | _ => exact hrest h

end Njs.Events

/-!
## Runs of the event queue

The invariant of the VM and its history. It is about one event at a time, but for the queue,
so that an operation is described by what it does to one event.
-/

namespace Njs.Events

open Vm

variable {F V : Type} {vm vm' : Vm F V} {log : List (Happening F V)} {hash : Option ℕ} {e : ℕ}
  {ev : Event F V}

/-- An event, with its place in the hash, agrees with the history. -/
structure EventInv (log : List (Happening F V)) (hash : Option ℕ) (e : ℕ) (ev : Event F V) :
    Prop where
  id_eq : ev.id = e
  hash_eq : hash = none ∨ hash = some e
  posted_live : ev.posted = true → hash = some e
  posted_iff : ev.posted = true ↔ e ∈ (pending log).map Prod.fst
  pending_args : ∀ args, (e, args) ∈ pending log → ev.callArgs = .ok args
  timer_args : hash = some e → ∀ args, timerArgs? log e = some args → ev.callArgs = .ok args
  host : ev.hostEvent = true → .destroyed e ∉ log
  deleted : .deleted e ∈ log → hash = none
  called : ev.once = true → ∀ function args, .called e function args ∈ log → hash = none
  made : hash = some e → MadeWith log e ev.function ev.once

/-- The VM agrees with its history. -/
structure Inv (vm : Vm F V) : Prop where
  eventId_eq : vm.eventId = vm.allocated
  allocated_iff : ∀ e, e < vm.allocated ↔ vm.events e ≠ none
  hash_none : ∀ e, vm.events e = none → vm.eventsHash e = none
  event : ∀ e ev, vm.events e = some ev → EventInv vm.log (vm.eventsHash e) e ev
  about_lt : ∀ x ∈ vm.log, ∀ e, x.About e → e < vm.allocated
  nodup : vm.postedEvents.Nodup
  pending_eq : (pending vm.log).map Prod.fst = vm.postedEvents
  lawful : Lawful vm.log

theorem inv_initial : Inv (initial : Vm F V) where
  eventId_eq := rfl
  allocated_iff := by simp [initial]
  hash_none := by simp [initial]
  event := by simp [initial]
  about_lt := by simp [initial]
  nodup := List.nodup_nil
  pending_eq := rfl
  lawful := lawful_nil

/-! ## One event at a time -/

theorem mem_pending_cons {x : Happening F V} (h : ¬ x.About e) (args : List (Value F V)) :
    (e, args) ∈ pending (x :: log) ↔ (e, args) ∈ pending log := by
  cases x with
  | posted e' args' =>
    have hne : e ≠ e' := fun heq => h heq.symm
    rw [pending]
    split_ifs
    · rfl
    · simp [hne]
  | called e' function args' =>
    have hne : e ≠ e' := fun heq => h heq.symm
    simp [pending, hne]
  | deleted e' =>
    have hne : e ≠ e' := fun heq => h heq.symm
    simp [pending, hne]
  | _ => rfl

theorem timerArgs?_cons {x : Happening F V} (h : ¬ x.About e) :
    timerArgs? (x :: log) e = timerArgs? log e := by
  cases x with
  | timer e' function args => exact if_neg h
  | _ => rfl

theorem MadeWith.cons {x : Happening F V} {function : F} {once : Bool}
    (h : MadeWith log e function once) : MadeWith (x :: log) e function once := by
  rcases h with h | ⟨honce, args, h⟩
  · exact Or.inl (List.mem_cons_of_mem _ h)
  · exact Or.inr ⟨honce, args, List.mem_cons_of_mem _ h⟩

theorem madeWith_append {function : F} {once : Bool} (h : MadeWith log e function once)
    (xs : List (Happening F V)) : MadeWith (xs ++ log) e function once := by
  induction xs with
  | nil => exact h
  | cons x xs ih => exact ih.cons

/-- What happens to other events does not matter. -/
theorem EventInv.cons {x : Happening F V} (h : EventInv log hash e ev) (hx : ¬ x.About e) :
    EventInv (x :: log) hash e ev where
  id_eq := h.id_eq
  hash_eq := h.hash_eq
  posted_live := h.posted_live
  posted_iff := by
    rw [h.posted_iff]
    constructor
    · intro hmem
      obtain ⟨⟨_, args⟩, hp, rfl⟩ := List.mem_map.mp hmem
      exact List.mem_map_of_mem (f := Prod.fst) ((mem_pending_cons hx args).mpr hp)
    · intro hmem
      obtain ⟨⟨_, args⟩, hp, rfl⟩ := List.mem_map.mp hmem
      exact List.mem_map_of_mem (f := Prod.fst) ((mem_pending_cons hx args).mp hp)
  pending_args := fun args hmem => h.pending_args args ((mem_pending_cons hx args).mp hmem)
  timer_args := fun hhash args htimer =>
    h.timer_args hhash args (by rwa [timerArgs?_cons hx] at htimer)
  host := by
    intro hhost hmem
    rcases List.mem_cons.mp hmem with rfl | hmem
    · exact hx rfl
    · exact h.host hhost hmem
  deleted := by
    intro hmem
    rcases List.mem_cons.mp hmem with rfl | hmem
    · exact absurd rfl hx
    · exact h.deleted hmem
  called := by
    intro honce function args hmem
    rcases List.mem_cons.mp hmem with rfl | hmem
    · exact absurd rfl hx
    · exact h.called honce function args hmem
  made := fun hhash => (h.made hhash).cons

theorem EventInv.append {xs : List (Happening F V)} (h : EventInv log hash e ev)
    (hxs : ∀ x ∈ xs, ¬ x.About e) : EventInv (xs ++ log) hash e ev := by
  induction xs with
  | nil => exact h
  | cons x xs ih =>
    exact (ih fun y hy => hxs y (List.mem_cons_of_mem _ hy)).cons (hxs x List.mem_cons_self)

/-- An operation writes one event, its place in the hash, and the queue. -/
theorem Inv.change (h : Inv vm) {e : ℕ} {ev : Event F V} {hash : Option ℕ}
    (xs : List (Happening F V)) (hevents : vm'.events = Function.update vm.events e (some ev))
    (hhash : vm'.eventsHash = Function.update vm.eventsHash e hash)
    (hlog : vm'.log = xs ++ vm.log) (hxs : ∀ x ∈ xs, ∀ e', x.About e' → e' = e)
    (hid : vm'.eventId = vm'.allocated)
    (hall : ∀ e', e' < vm'.allocated ↔ e' < vm.allocated ∨ e' = e)
    (hev : EventInv vm'.log hash e ev) (hnodup : vm'.postedEvents.Nodup)
    (hpending : (pending vm'.log).map Prod.fst = vm'.postedEvents) (hlawful : Lawful vm'.log) :
    Inv vm' where
  eventId_eq := hid
  allocated_iff := by
    intro e'
    rw [hevents, hall, h.allocated_iff]
    by_cases heq : e' = e
    · subst heq
      simp
    · simp [heq]
  hash_none := by
    intro e' hnone
    rw [hevents] at hnone
    by_cases heq : e' = e
    · subst heq
      simp at hnone
    · rw [Function.update_of_ne heq] at hnone
      rw [hhash, Function.update_of_ne heq]
      exact h.hash_none e' hnone
  event := by
    intro e' ev' hev'
    rw [hevents] at hev'
    by_cases heq : e' = e
    · subst heq
      rw [Function.update_self, Option.some_inj] at hev'
      rwa [hhash, Function.update_self, ← hev']
    · rw [Function.update_of_ne heq] at hev'
      rw [hhash, Function.update_of_ne heq, hlog]
      exact (h.event e' ev' hev').append fun x hx habout => heq (hxs x hx e' habout)
  about_lt := by
    intro x hx e' habout
    rw [hlog] at hx
    rcases List.mem_append.mp hx with hx | hx
    · exact (hall e').mpr (Or.inr (hxs x hx e' habout))
    · exact (hall e').mpr (Or.inl (h.about_lt x hx e' habout))
  nodup := hnodup
  pending_eq := hpending
  lawful := hlawful

/-! ## Facts about single events -/

theorem Inv.mem_queue_iff (h : Inv vm) (hev : vm.events e = some ev) :
    e ∈ vm.postedEvents ↔ ev.posted = true := by
  rw [← h.pending_eq]
  exact (h.event e ev hev).posted_iff.symm

/-- The queue holds events only. -/
theorem Inv.events_of_mem_queue (h : Inv vm) (hmem : e ∈ vm.postedEvents) :
    ∃ ev, vm.events e = some ev := by
  rw [← h.pending_eq] at hmem
  obtain ⟨x, hx, habout⟩ := mem_pending_fst hmem
  exact Option.ne_none_iff_exists'.mp ((h.allocated_iff e).mp (h.about_lt x hx e habout))

theorem Inv.all_of_some (h : Inv vm) (hev : vm.events e = some ev) :
    ∀ e', e' < vm.allocated ↔ e' < vm.allocated ∨ e' = e := by
  have he : e < vm.allocated := (h.allocated_iff e).mpr (by simp [hev])
  intro e'
  omega

/-- An address that is not in use has no history. -/
theorem Inv.not_about (h : Inv vm) : ∀ x ∈ vm.log, ¬ x.About vm.allocated :=
  fun x hx habout => Nat.lt_irrefl _ (h.about_lt x hx _ habout)

theorem Inv.fresh (h : Inv vm) : vm.events vm.allocated = none := by
  by_contra hne
  exact Nat.lt_irrefl _ ((h.allocated_iff _).mpr hne)

theorem Inv.hash_fresh (h : Inv vm) : vm.eventsHash vm.allocated = none :=
  h.hash_none _ h.fresh

/-! ## Deleting -/

/-- What the destructor leaves in the history. -/
def releaseLog (e : ℕ) (ev : Event F V) : List (Happening F V) :=
  if ev.destructor && ev.hostEvent then [.destroyed e] else []

/-- The VM after `njs_del_event`. -/
def dropped (vm : Vm F V) (e : ℕ) (ev : Event F V) : Vm F V :=
  { vm with
    events := Function.update vm.events e (some { ev with hostEvent := false, posted := false })
    eventsHash := Function.update vm.eventsHash e none
    postedEvents := vm.postedEvents.erase e
    log := releaseLog e ev ++ vm.log }

theorem delEvent_eq (hev : vm.events e = some ev) (hid : ev.id = e)
    (hqueue : e ∈ vm.postedEvents ↔ ev.posted = true) :
    delEvent vm e = .ok (dropped vm e ev) := by
  have hread : vm.read e = .ok ev := by simp [Vm.read, hev]
  rcases hposted : ev.posted with - | -
  · have hnot : e ∉ vm.postedEvents := by simp [hqueue, hposted]
    rcases hrelease : (ev.destructor && ev.hostEvent) with - | - <;>
      simp [delEvent, hread, hposted, hrelease, dropped, releaseLog, Vm.write, Vm.hashDelete,
        Vm.record, hid, List.erase_of_not_mem hnot, bind, Except.bind, pure, Except.pure]
  · have hmem : e ∈ vm.postedEvents := hqueue.mpr hposted
    rcases hrelease : (ev.destructor && ev.hostEvent) with - | - <;>
      simp [delEvent, hread, hposted, hrelease, dropped, releaseLog, Vm.write, Vm.hashDelete,
        Vm.record, Vm.queueRemove, hid, hmem, bind, Except.bind, pure, Except.pure]

/-- A history after which an event is not pending, and other postings are as before. -/
theorem pending_filter_fst (log : List (Happening F V)) (e : ℕ) :
    ((pending log).filter fun p => p.1 ≠ e).map Prod.fst =
      ((pending log).map Prod.fst).filter fun e' => e' ≠ e := by
  rw [List.filter_map]
  rfl

theorem erase_eq_filter {queue : List ℕ} (h : queue.Nodup) :
    queue.erase e = queue.filter fun e' => e' ≠ e := by
  rw [h.erase_eq_filter]
  exact List.filter_congr fun x _ => by by_cases hx : x = e <;> simp [hx]

theorem mem_releaseLog {x : Happening F V} (h : x ∈ releaseLog e ev) : x = .destroyed e := by
  unfold releaseLog at h
  split_ifs at h
  · exact List.mem_singleton.mp h
  · simp at h

theorem pending_releaseLog : pending (releaseLog e ev ++ log) = pending log := by
  unfold releaseLog
  split_ifs <;> rfl

theorem EventInv.lawful_releaseLog (h : EventInv log hash e ev) (hlog : Lawful log) :
    Lawful (releaseLog e ev ++ log) := by
  unfold releaseLog
  split_ifs with hrelease
  · exact hlog.cons (h.host (Bool.and_eq_true_iff.mp hrelease).2)
  · exact hlog

/-- An event leaves the queue, and stays in the hash or not. -/
theorem Inv.leave (h : Inv vm) (hev : vm.events e = some ev) {ev' : Event F V} {hash : Option ℕ}
    (x : Happening F V) (xs : List (Happening F V))
    (hxs : ∀ y ∈ x :: xs, ∀ e', y.About e' → e' = e)
    (hpending : pending (x :: xs ++ vm.log) = (pending vm.log).filter fun p => p.1 ≠ e)
    (hlawful : Lawful (x :: xs ++ vm.log))
    (hev' : EventInv (x :: xs ++ vm.log) hash e ev') (stack : List Control) :
    Inv { vm with
      events := Function.update vm.events e (some ev')
      eventsHash := Function.update vm.eventsHash e hash
      postedEvents := vm.postedEvents.erase e
      stack := stack
      log := x :: xs ++ vm.log } := by
  refine h.change (x :: xs) rfl rfl rfl hxs h.eventId_eq (h.all_of_some hev) hev' (h.nodup.erase e)
    ?_ hlawful
  rw [hpending, pending_filter_fst, h.pending_eq, erase_eq_filter h.nodup]

/-- A deleted event, which is neither in the hash nor in the queue. -/
theorem eventInv_dropped (h : EventInv log hash e ev) {log' : List (Happening F V)}
    (hpending : pending log' = (pending log).filter fun p => p.1 ≠ e) :
    EventInv log' none e { ev with hostEvent := false, posted := false } where
  id_eq := h.id_eq
  hash_eq := Or.inl rfl
  posted_live := by simp
  posted_iff := by
    rw [hpending]
    simp
  pending_args := by
    intro args hmem
    rw [hpending] at hmem
    simpa using (List.mem_filter.mp hmem).2
  timer_args := by simp
  host := by simp
  deleted := fun _ => rfl
  called := fun _ _ _ _ => rfl
  made := by simp

/-- `njs_vm_del_event` and `clearTimeout` delete an event. -/
theorem Inv.delete (h : Inv vm) (hev : vm.events e = some ev) :
    Inv ((dropped vm e ev).record (.deleted e)) := by
  have hevent := h.event e ev hev
  have hpending : pending (.deleted e :: releaseLog e ev ++ vm.log) =
      (pending vm.log).filter fun p => p.1 ≠ e := by
    rw [List.cons_append, pending, pending_releaseLog]
  refine h.leave hev _ _ ?_ hpending ((hevent.lawful_releaseLog h.lawful).cons trivial)
    (eventInv_dropped hevent hpending) vm.stack
  intro y hy e' habout
  rcases List.mem_cons.mp hy with rfl | hy
  · exact habout.symm
  · rw [mem_releaseLog hy] at habout
    exact habout.symm

theorem delEvent_spec (h : Inv vm) (hev : vm.events e = some ev) :
    delEvent vm e = .ok (dropped vm e ev) :=
  delEvent_eq hev (h.event e ev hev).id_eq (h.mem_queue_iff hev)

/-! ## Delivering -/

/-- The oldest posting is that of the first event in the queue, with its stored arguments. -/
theorem Inv.head (h : Inv vm) {rest : List ℕ} (hqueue : vm.postedEvents = e :: rest)
    (hev : vm.events e = some ev) :
    ∃ args, (pending vm.log).head? = some (e, args) ∧ ev.callArgs = .ok args := by
  have hfst := h.pending_eq
  rw [hqueue] at hfst
  obtain ⟨⟨_, args⟩, ps, hps, rfl, -⟩ := List.map_eq_cons_iff.mp hfst
  refine ⟨args, by rw [hps]; rfl, (h.event _ ev hev).pending_args args ?_⟩
  rw [hps]
  exact List.mem_cons_self

/-- `njs_vm_run` returns when there are no postings left. -/
theorem Inv.return (h : Inv vm) (hqueue : vm.postedEvents = []) (stack : List Control) :
    Inv ({ vm with stack := stack }.record .returned) where
  eventId_eq := h.eventId_eq
  allocated_iff := h.allocated_iff
  hash_none := h.hash_none
  event := fun e ev hev => (h.event e ev hev).cons id
  about_lt := by
    intro x hx e habout
    rcases List.mem_cons.mp hx with rfl | hx
    · exact habout.elim
    · exact h.about_lt x hx e habout
  nodup := h.nodup
  pending_eq := h.pending_eq
  lawful := h.lawful.cons (List.map_eq_nil_iff.mp (h.pending_eq.trans hqueue))

/-- A repeating event that is delivered leaves the queue only. -/
theorem eventInv_delivered (h : EventInv log hash e ev) (honce : ev.once = false) {function : F}
    {args : List (Value F V)} :
    EventInv (.called e function args :: log) hash e { ev with posted := false } where
  id_eq := h.id_eq
  hash_eq := h.hash_eq
  posted_live := by simp
  posted_iff := by simp [pending]
  pending_args := by
    intro args hmem
    simpa using (List.mem_filter.mp hmem).2
  timer_args := h.timer_args
  host := fun hhost hmem => h.host hhost (by simpa using hmem)
  deleted := fun hmem => h.deleted (by simpa using hmem)
  called := by simp [honce]
  made := fun hhash => (h.made hhash).cons

/-- The loop body keeps the invariant: the call is that of the oldest posting. -/
theorem handleEvent_inv (h : Inv vm) : ∃ vm', handleEvent vm = .ok vm' ∧ Inv vm' := by
  rcases hqueue : vm.postedEvents with - | ⟨e, rest⟩
  · refine ⟨_, ?_, h.return hqueue vm.stack.tail⟩
    unfold handleEvent
    split
    · rfl
    · simp_all
  · have hmem : e ∈ vm.postedEvents := by
      rw [hqueue]
      exact List.mem_cons_self
    obtain ⟨ev, hev⟩ := h.events_of_mem_queue hmem
    obtain ⟨args, hhead, hargs⟩ := h.head hqueue hev
    have hevent := h.event e ev hev
    have hposted : ev.posted = true := (h.mem_queue_iff hev).mp hmem
    have hlive : vm.eventsHash e = some e := hevent.posted_live hposted
    have hread : vm.read e = .ok ev := by simp [Vm.read, hev]
    have hnot : Happening.deleted e ∉ vm.log := fun hdel => by
      simp [hevent.deleted hdel] at hlive
    have hfirst : ev.once = true → ∀ function' args', .called e function' args' ∉ vm.log :=
      fun honce function' args' hcalled => by
        simp [hevent.called honce function' args' hcalled] at hlive
    have hmade := hevent.made hlive
    rcases honce : ev.once with - | -
    · have hrun : handleEvent vm = .ok { vm with
          events := Function.update vm.events e (some { ev with posted := false })
          eventsHash := Function.update vm.eventsHash e (vm.eventsHash e)
          postedEvents := vm.postedEvents.erase e
          stack := .callback :: vm.stack
          log := .called e ev.function args :: vm.log } := by
        unfold handleEvent
        split
        · simp_all
        · obtain ⟨rfl, -⟩ := List.cons.inj (hqueue.symm.trans ‹_›)
          simp [hread, honce, hargs, Vm.write, Vm.queueRemove, Vm.record, hmem, bind, Except.bind,
            pure, Except.pure]
      refine ⟨_, hrun, h.leave hev _ [] ?_ rfl ?_ (eventInv_delivered hevent honce) _⟩
      · intro y hy e' habout
        obtain rfl := List.mem_singleton.mp hy
        exact habout.symm
      · exact h.lawful.cons ⟨hhead, hnot, false, honce ▸ hmade, by simp⟩
    · have hpending : pending (.called e ev.function args :: releaseLog e ev ++ vm.log) =
          (pending vm.log).filter fun p => p.1 ≠ e := by
        rw [List.cons_append, pending, pending_releaseLog]
      have hrun : handleEvent vm = .ok ({ dropped vm e ev with
          stack := .callback :: vm.stack }.record (.called e ev.function args)) := by
        unfold handleEvent
        split
        · simp_all
        · obtain ⟨rfl, -⟩ := List.cons.inj (hqueue.symm.trans ‹_›)
          simp [hread, honce, hargs, delEvent_spec h hev, bind, Except.bind, pure, Except.pure,
            dropped]
      refine ⟨_, hrun, h.leave hev _ _ ?_ hpending ?_ (eventInv_dropped hevent hpending) _⟩
      · intro y hy e' habout
        rcases List.mem_cons.mp hy with rfl | hy
        · exact habout.symm
        · rw [mem_releaseLog hy] at habout
          exact habout.symm
      · refine (hevent.lawful_releaseLog h.lawful).cons ⟨?_, ?_, true, honce ▸ ?_, ?_⟩
        · rwa [pending_releaseLog]
        · intro hdel
          rcases List.mem_append.mp hdel with hdel | hdel
          · cases mem_releaseLog hdel
          · exact hnot hdel
        · exact madeWith_append hmade _
        · intro _ function' args' hcalled
          rcases List.mem_append.mp hcalled with hcalled | hcalled
          · cases mem_releaseLog hcalled
          · exact hfirst honce function' args' hcalled

/-! ## Posting -/

theorem pending_posted_of_mem {args : List (Value F V)} (h : e ∈ (pending log).map Prod.fst) :
    pending (.posted e args :: log) = pending log := by
  rw [pending, if_pos h]

theorem pending_posted_of_not_mem {args : List (Value F V)}
    (h : e ∉ (pending log).map Prod.fst) :
    pending (.posted e args :: log) = pending log ++ [(e, expectedArgs log e args)] := by
  rw [pending, if_neg h]

/-- An event that is posted again stays as it is. -/
theorem eventInv_posted_again (h : EventInv log hash e ev) (hposted : ev.posted = true)
    (args : List (Value F V)) : EventInv (.posted e args :: log) hash e ev := by
  have hpending := @pending_posted_of_mem _ _ _ _ args (h.posted_iff.mp hposted)
  exact
    { id_eq := h.id_eq
      hash_eq := h.hash_eq
      posted_live := h.posted_live
      posted_iff := by rw [hpending]; exact h.posted_iff
      pending_args := by rw [hpending]; exact h.pending_args
      timer_args := h.timer_args
      host := fun hhost hmem => h.host hhost (by simpa using hmem)
      deleted := fun hmem => h.deleted (by simpa using hmem)
      called := fun honce function args' hmem =>
        h.called honce function args' (by simpa using hmem)
      made := fun hhash => (h.made hhash).cons }

/-- A live event that is not posted gets the arguments that its posting asks for. -/
theorem eventInv_posted (h : EventInv log (some e) e ev) (hposted : ev.posted = false)
    {args : List (Value F V)} (ev' : Event F V) (hid : ev'.id = ev.id)
    (hfunction : ev'.function = ev.function) (honce : ev'.once = ev.once)
    (hhost : ev'.hostEvent = ev.hostEvent)
    (hargs : ev'.callArgs = .ok (expectedArgs log e args)) :
    EventInv (.posted e args :: log) (some e) e { ev' with posted := true } := by
  have hnot : e ∉ (pending log).map Prod.fst := by simp [← h.posted_iff, hposted]
  have hpending := @pending_posted_of_not_mem _ _ _ _ args hnot
  exact
    { id_eq := hid.trans h.id_eq
      hash_eq := Or.inr rfl
      posted_live := fun _ => rfl
      posted_iff := by rw [hpending]; simp
      pending_args := by
        intro args' hmem
        rw [hpending, List.mem_append] at hmem
        rcases hmem with hmem | hmem
        · exact absurd (List.mem_map_of_mem (f := Prod.fst) hmem) hnot
        · obtain ⟨-, rfl⟩ := Prod.mk.inj (List.mem_singleton.mp hmem)
          exact hargs
      timer_args := by
        intro _ given hgiven
        rw [expectedArgs, show timerArgs? log e = some given from hgiven] at hargs
        exact hargs
      host := fun hhost' hmem => h.host (hhost ▸ hhost') (by simpa using hmem)
      deleted := fun hmem => h.deleted (by simpa using hmem)
      called := fun honce' function args' hmem =>
        h.called (honce ▸ honce') function args' (by simpa using hmem)
      made := fun hhash => by
        change MadeWith _ e ev'.function ev'.once
        rw [hfunction, honce]
        exact (h.made hhash).cons }

/-- `njs_vm_post_event` keeps the invariant, if the posting does not depend on what an earlier
one left behind. -/
theorem vmPostEvent_inv (h : Inv vm) {args : List (Value F V)} {memory : Bool} (hlive : Live vm e)
    (hposting : Posting vm e args memory) :
    ∃ o vm', vmPostEvent vm e args memory = .ok (o, vm') ∧ Inv vm' := by
  obtain ⟨ev, hev, hhash⟩ := hlive
  have hevent := h.event e ev hev
  rw [hevent.id_eq] at hhash
  rw [hhash] at hevent
  have hread : vm.read e = .ok ev := by simp [Vm.read, hev]
  have hupdate : Function.update vm.eventsHash e (some e) = vm.eventsHash := by
    rw [← hhash, Function.update_eq_self]
  rcases hposted : ev.posted with - | -
  · have hnot : e ∉ vm.postedEvents := by simp [h.mem_queue_iff hev, hposted]
    have hnot' : e ∉ (pending vm.log).map Prod.fst := by rwa [h.pending_eq]
    have hgiven := hposting ev hev hposted
    -- The queue and the history once the event is posted.
    have hpost : ∀ ev' : Event F V, EventInv (.posted e args :: vm.log) (some e) e ev' →
        Inv { vm with
          events := Function.update vm.events e (some ev')
          postedEvents := vm.postedEvents ++ [e]
          log := .posted e args :: vm.log } := by
      intro ev' hev'
      refine h.change [.posted e args] rfl hupdate.symm rfl ?_ h.eventId_eq
        (h.all_of_some hev) hev' ?_ ?_ (h.lawful.cons trivial)
      · intro y hy e' habout
        obtain rfl := List.mem_singleton.mp hy
        exact habout.symm
      · exact List.nodup_append.mpr ⟨h.nodup, List.nodup_cons.mpr
          ⟨List.not_mem_nil, List.nodup_nil⟩, by
          rintro a ha b hb rfl
          exact hnot (List.mem_singleton.mp hb ▸ ha)⟩
      · rw [pending_posted_of_not_mem hnot', List.map_append, h.pending_eq]
        rfl
    by_cases hargs : args = []
    · -- The stored arguments are used.
      subst hargs
      have hcall : ev.callArgs = .ok (expectedArgs vm.log e []) := by
        rcases htimer : timerArgs? vm.log e with - | given
        · rw [htimer] at hgiven
          have hzero : ev.nargs = 0 := by simpa using hgiven
          simp [Event.callArgs, expectedArgs, htimer, hzero]
        · rw [hevent.timer_args rfl given htimer, expectedArgs, htimer]
          rfl
      refine ⟨.ok, _, ?_, hpost { ev with posted := true }
        (eventInv_posted hevent hposted ev rfl rfl rfl rfl hcall)⟩
      simp [vmPostEvent, hread, hposted, Vm.write, Vm.queueInsertTail, Vm.record, hnot, bind,
        Except.bind, pure, Except.pure]
    · have hlen : args.length ≠ 0 := by simpa using hargs
      rcases hmemory : memory with - | -
      · -- The block of arguments is lost, which only an event with no arguments of its own is.
        refine ⟨.failed, vm.write e { ev with nargs := args.length, args := none }, ?_, ?_⟩
        · simp [vmPostEvent, hread, hposted, hargs, bind, Except.bind, pure, Except.pure]
        · refine h.change [] rfl hupdate.symm rfl (by simp) h.eventId_eq
            (h.all_of_some hev) ?_ h.nodup h.pending_eq h.lawful
          have htimer : timerArgs? vm.log e = none := by
            rcases htimer : timerArgs? vm.log e with - | given
            · rfl
            · rw [htimer, hmemory] at hgiven
              simp [hargs] at hgiven
          exact
            { hevent with
              pending_args := fun args' hmem =>
                absurd (List.mem_map_of_mem (f := Prod.fst) hmem) hnot'
              timer_args := fun _ given hsome => by
                change timerArgs? vm.log e = some given at hsome
                simp [htimer] at hsome }
      · have hcall : ({ ev with nargs := args.length, args := some args } : Event F V).callArgs =
            .ok (expectedArgs vm.log e args) := by
          have hexpected : expectedArgs vm.log e args = args := by
            rcases htimer : timerArgs? vm.log e with - | given
            · simp [expectedArgs, htimer]
            · rw [htimer] at hgiven
              have hsame : args = given := by simpa [hargs, hmemory] using hgiven
              simp [expectedArgs, htimer, hsame]
          rw [hexpected]
          simp [Event.callArgs, hargs]
        refine ⟨.ok, _, ?_, hpost
          { ev with nargs := args.length, args := some args, posted := true }
          (eventInv_posted hevent hposted { ev with nargs := args.length, args := some args }
            rfl rfl rfl rfl hcall)⟩
        simp [vmPostEvent, hread, hposted, hargs, Vm.write, Vm.queueInsertTail, Vm.record, hnot,
          bind, Except.bind, pure, Except.pure]
  · have hsame : Function.update vm.events e (some ev) = vm.events := by
      rw [← hev, Function.update_eq_self]
    refine ⟨.ok, vm.record (.posted e args), ?_, ?_⟩
    · simp [vmPostEvent, hread, hposted, Vm.write, hsame, bind, Except.bind, pure, Except.pure]
    · refine h.change [.posted e args] hsame.symm hupdate.symm rfl ?_ h.eventId_eq
        (h.all_of_some hev) (eventInv_posted_again hevent hposted args) h.nodup ?_
        (h.lawful.cons trivial)
      · intro y hy e' habout
        obtain rfl := List.mem_singleton.mp hy
        exact habout.symm
      · exact (congrArg (List.map Prod.fst)
          (pending_posted_of_mem (hevent.posted_iff.mp hposted))).trans h.pending_eq

/-! ## Adding -/

/-- The VM with one more event in the hash. -/
def registered (vm : Vm F V) (ev : Event F V) : Vm F V :=
  { vm with
    allocated := vm.allocated + 1
    eventId := (vm.eventId + 1) % 2 ^ 32
    events := Function.update vm.events vm.allocated (some { ev with id := vm.eventId })
    eventsHash := Function.update vm.eventsHash vm.eventId (some vm.allocated) }

/-- The VM with one more event that is not in the hash. -/
def leaked (vm : Vm F V) (ev : Event F V) : Vm F V :=
  { vm with
    allocated := vm.allocated + 1
    eventId := (vm.eventId + 1) % 2 ^ 32
    events := Function.update vm.events vm.allocated
      (some { ev with id := vm.eventId, hostEvent := false })
    log := releaseLog vm.allocated ev ++ vm.log }

theorem addEvent_eq (h : Inv vm) (hposted : ev.posted = false) (insert : Bool) :
    addEvent vm ev insert =
      if insert then .ok (.id vm.eventId, registered vm ev)
      else .ok (.internalError "Failed to add event with id: %s", leaked vm ev) := by
  have hnone : vm.eventsHash vm.eventId = none := by
    rw [h.eventId_eq]
    exact h.hash_fresh
  rcases insert with - | -
  · have hkeep : Function.update vm.eventsHash vm.eventId none = vm.eventsHash := by
      rw [← hnone, Function.update_eq_self]
    rcases hrelease : (ev.destructor && ev.hostEvent) with - | - <;>
      simp [addEvent, delEvent, Vm.read, Vm.write, Vm.record, Vm.hashDelete, hposted, hrelease,
        hkeep, leaked, releaseLog, bind, Except.bind, pure, Except.pure]
  · simp [addEvent, Vm.write, hnone, registered]

/-- An event at a fresh address, which is not in the hash. -/
theorem eventInv_leaked (hfresh : ∀ x ∈ log, ¬ x.About e) (hposted : ev.posted = false) :
    EventInv (releaseLog e ev ++ log) none e { ev with id := e, hostEvent := false } where
  id_eq := rfl
  hash_eq := Or.inl rfl
  posted_live := by simp [hposted]
  posted_iff := by
    rw [pending_releaseLog]
    constructor
    · simp [hposted]
    · intro hmem
      obtain ⟨x, hx, habout⟩ := mem_pending_fst hmem
      exact absurd habout (hfresh x hx)
  pending_args := by
    intro args hmem
    rw [pending_releaseLog] at hmem
    obtain ⟨x, hx, habout⟩ := mem_pending_fst (List.mem_map_of_mem (f := Prod.fst) hmem)
    exact absurd habout (hfresh x hx)
  timer_args := by simp
  host := by simp
  deleted := fun _ => rfl
  called := fun _ _ _ _ => rfl
  made := by simp

/-- An event at a fresh address, in the hash. -/
theorem eventInv_registered (hfresh : ∀ x ∈ log, ¬ x.About e) (hposted : ev.posted = false)
    {x : Happening F V} (hx : x = .added e ev.function ev.once ∨
      ev.once = true ∧ ∃ args, x = .timer e ev.function args ∧ ev.callArgs = .ok args) :
    EventInv (x :: log) (some e) e { ev with id := e } := by
  have hpending : pending (x :: log) = pending log := by
    rcases hx with rfl | ⟨-, args, rfl, -⟩ <;> rfl
  exact
    { id_eq := rfl
      hash_eq := Or.inr rfl
      posted_live := fun _ => rfl
      posted_iff := by
        rw [hpending]
        constructor
        · simp [hposted]
        · intro hmem
          obtain ⟨y, hy, habout⟩ := mem_pending_fst hmem
          exact absurd habout (hfresh y hy)
      pending_args := by
        intro args hmem
        rw [hpending] at hmem
        obtain ⟨y, hy, habout⟩ := mem_pending_fst (List.mem_map_of_mem (f := Prod.fst) hmem)
        exact absurd habout (hfresh y hy)
      timer_args := by
        intro _ args htimer
        rcases hx with rfl | ⟨-, args', rfl, hargs⟩
        · rw [show timerArgs? (.added e ev.function ev.once :: log) e = timerArgs? log e from rfl,
            timerArgs?_eq_none hfresh] at htimer
          cases htimer
        · obtain rfl : args' = args := by simpa [timerArgs?] using htimer
          exact hargs
      host := by
        intro _ hmem
        rcases List.mem_cons.mp hmem with heq | hmem
        · rcases hx with rfl | ⟨-, args, rfl, -⟩ <;> cases heq
        · exact hfresh _ hmem rfl
      deleted := by
        intro hmem
        rcases List.mem_cons.mp hmem with heq | hmem
        · rcases hx with rfl | ⟨-, args, rfl, -⟩ <;> cases heq
        · exact absurd rfl (hfresh _ hmem)
      called := by
        intro _ function args hmem
        rcases List.mem_cons.mp hmem with heq | hmem
        · rcases hx with rfl | ⟨-, args, rfl, -⟩ <;> cases heq
        · exact absurd rfl (hfresh _ hmem)
      made := by
        intro _
        rcases hx with rfl | ⟨honce, args, rfl, -⟩
        · exact Or.inl List.mem_cons_self
        · exact Or.inr ⟨honce, args, List.mem_cons_self⟩ }

theorem Inv.leak (h : Inv vm) (hposted : ev.posted = false) (hbound : vm.allocated + 1 < 2 ^ 32) :
    Inv (leaked vm ev) := by
  have hid : (vm.eventId + 1) % 2 ^ 32 = vm.allocated + 1 := by
    rw [h.eventId_eq, Nat.mod_eq_of_lt hbound]
  have hev := eventInv_leaked h.not_about hposted
  have hkeep : Function.update vm.eventsHash vm.allocated none = vm.eventsHash := by
    rw [← h.hash_fresh, Function.update_eq_self]
  refine h.change (releaseLog vm.allocated ev) (by rw [leaked, h.eventId_eq]) hkeep.symm
    rfl ?_ hid ?_
    hev h.nodup ?_ ?_
  · intro y hy e' habout
    rw [mem_releaseLog hy] at habout
    exact habout.symm
  · intro e'
    simp only [leaked]
    omega
  · change (pending (releaseLog vm.allocated ev ++ vm.log)).map Prod.fst = vm.postedEvents
    rw [pending_releaseLog, h.pending_eq]
  · change Lawful (releaseLog vm.allocated ev ++ vm.log)
    unfold releaseLog
    split_ifs
    · exact h.lawful.cons fun hmem => h.not_about _ hmem rfl
    · exact h.lawful

theorem Inv.register (h : Inv vm) (hposted : ev.posted = false)
    (hbound : vm.allocated + 1 < 2 ^ 32) {x : Happening F V}
    (hx : x = .added vm.allocated ev.function ev.once ∨
      ev.once = true ∧ ∃ args, x = .timer vm.allocated ev.function args ∧ ev.callArgs = .ok args) :
    Inv ((registered vm ev).record x) := by
  have hid : (vm.eventId + 1) % 2 ^ 32 = vm.allocated + 1 := by
    rw [h.eventId_eq, Nat.mod_eq_of_lt hbound]
  have hev := eventInv_registered h.not_about hposted hx
  refine h.change [x] (by rw [Vm.record, registered, h.eventId_eq])
    (by rw [Vm.record, registered, h.eventId_eq]) rfl ?_ hid ?_ hev h.nodup ?_ ?_
  · intro y hy e' habout
    obtain rfl := List.mem_singleton.mp hy
    rcases hx with rfl | ⟨-, args, rfl, -⟩ <;> exact habout.symm
  · intro e'
    simp only [registered, Vm.record]
    omega
  · rcases hx with rfl | ⟨-, args, rfl, -⟩ <;> exact h.pending_eq
  · refine h.lawful.cons ?_
    rcases hx with rfl | ⟨-, args, rfl, -⟩ <;> trivial

theorem vmAddEvent_inv (h : Inv vm) (function : F)
    (once hostEvent destructor memory insert : Bool) :
    ∃ o vm', vmAddEvent vm function once hostEvent destructor memory insert = .ok (o, vm') ∧
      (vm'.allocated < 2 ^ 32 → Inv vm') := by
  rcases memory with - | -
  · exact ⟨_, _, rfl, fun _ => h⟩
  · have hposted : (newEvent function once hostEvent destructor : Event F V).posted = false := rfl
    have hadd := addEvent_eq h hposted insert
    rcases insert with - | -
    · refine ⟨.failed, leaked vm (newEvent function once hostEvent destructor), ?_,
        fun hbound => h.leak hposted hbound⟩
      rw [vmAddEvent, if_pos rfl, hadd]
      rfl
    · refine ⟨.ok, (registered vm (newEvent function once hostEvent destructor)).record
        (.added vm.allocated function once), ?_,
        fun hbound => h.register hposted hbound (Or.inl rfl)⟩
      rw [vmAddEvent, if_pos rfl, hadd]
      rfl

theorem timerEvent_callArgs (function : F) (args : List (Value F V)) (destructor : Bool) :
    (timerEvent function args destructor).callArgs = .ok args := by
  rcases args with - | ⟨a, args⟩ <;> simp [timerEvent, Event.callArgs]

theorem setTimer_inv (h : Inv vm) (args : List (Value F V)) (immediate : Bool) (host : Host) :
    ∃ o vm', setTimer vm args immediate host = .ok (o, vm') ∧
      (vm'.allocated < 2 ^ 32 → Inv vm') := by
  have hsame : ∀ o, (Except.ok (o, vm) : Result (Outcome × Vm F V)) = .ok (o, vm) ∧
      (vm.allocated < 2 ^ 32 → Inv vm) := fun o => ⟨rfl, fun _ => h⟩
  rcases args with - | ⟨function | _, rest⟩
  · exact ⟨_, _, hsame _⟩
  · unfold setTimer
    simp only
    generalize (if immediate = true then rest else rest.drop 1) = args
    split
    · exact ⟨_, _, hsame _⟩
    split
    · exact ⟨_, _, hsame _⟩
    split
    · exact ⟨_, _, hsame _⟩
    split
    · exact ⟨_, _, hsame _⟩
    · have hposted : (timerEvent function args host.clearTimer).posted = false := rfl
      have hadd := addEvent_eq h hposted host.insert
      rw [hadd]
      rcases host.insert with - | -
      · exact ⟨.internalError "Failed to add event with id: %s", _, rfl,
          fun hbound => h.leak hposted hbound⟩
      · exact ⟨.id vm.eventId, _, rfl, fun hbound => h.register hposted hbound
          (Or.inr ⟨rfl, args, rfl, timerEvent_callArgs function args host.clearTimer⟩)⟩
  · exact ⟨_, _, hsame _⟩

/-! ## Runs -/

theorem vmDelEvent_inv (h : Inv vm) (hev : vm.events e = some ev) :
    ∃ o vm', vmDelEvent vm e = .ok (o, vm') ∧ Inv vm' := by
  refine ⟨.undefined, _, ?_, h.delete hev⟩
  rw [vmDelEvent, delEvent_spec h hev]
  rfl

theorem clearTimeout_inv (h : Inv vm) (id : Option ℕ) :
    ∃ o vm', clearTimeout vm id = .ok (o, vm') ∧ Inv vm' := by
  rcases id with - | id
  · exact ⟨_, _, rfl, h⟩
  · rcases hhash : vm.eventsHash id with - | e
    · exact ⟨.undefined, vm, by simp only [clearTimeout, hhash], h⟩
    · have hsome : vm.events id ≠ none := fun hnone => by simp [h.hash_none id hnone] at hhash
      obtain ⟨ev, hev⟩ := Option.ne_none_iff_exists'.mp hsome
      obtain rfl : e = id := by simpa [hhash] using (h.event id ev hev).hash_eq
      refine ⟨.undefined, _, ?_, h.delete hev⟩
      simp only [clearTimeout, hhash, delEvent_spec h hev, bind, Except.bind, pure, Except.pure]

theorem Inv.withStack (h : Inv vm) (stack : List Control) : Inv { vm with stack := stack } :=
  { h with }

/-- A step that meets the condition is defined, and keeps the invariant. -/
theorem perform_inv (h : Inv vm) {a : Action F V} (henabled : Enabled vm a) (hcond : Renewed vm a) :
    ∃ vm', perform vm a = .ok vm' ∧ (vm'.allocated < 2 ^ 32 → Inv vm') := by
  cases a with
  | addEvent function once hostEvent destructor memory insert =>
    obtain ⟨o, vm', hrun, hinv⟩ := vmAddEvent_inv h function once hostEvent destructor memory insert
    exact ⟨vm', by rw [perform, hrun]; rfl, hinv⟩
  | setTimeout args host =>
    obtain ⟨o, vm', hrun, hinv⟩ := setTimer_inv h args false host
    exact ⟨vm', by rw [perform, setTimeout, hrun]; rfl, hinv⟩
  | setImmediate args host =>
    obtain ⟨o, vm', hrun, hinv⟩ := setTimer_inv h args true host
    exact ⟨vm', by rw [perform, setImmediate, hrun]; rfl, hinv⟩
  | post e args memory =>
    obtain ⟨o, vm', hrun, hinv⟩ := vmPostEvent_inv h henabled.2 hcond
    exact ⟨vm', by rw [perform, hrun]; rfl, fun _ => hinv⟩
  | delEvent e =>
    obtain ⟨ev, hev⟩ := Option.ne_none_iff_exists'.mp henabled.2
    obtain ⟨o, vm', hrun, hinv⟩ := vmDelEvent_inv h hev
    exact ⟨vm', by rw [perform, hrun]; rfl, fun _ => hinv⟩
  | clearTimeout id =>
    obtain ⟨o, vm', hrun, hinv⟩ := clearTimeout_inv h id
    exact ⟨vm', by rw [perform, hrun]; rfl, fun _ => hinv⟩
  | run => exact ⟨_, rfl, fun _ => h.withStack _⟩
  | loop =>
    obtain ⟨vm', hrun, hinv⟩ := handleEvent_inv h
    exact ⟨vm', hrun, fun _ => hinv⟩
  | finish => exact ⟨_, rfl, fun _ => h.withStack _⟩
  | throw => exact ⟨_, rfl, fun _ => h.withStack _⟩

theorem Run.inv (h : Run Renewed vm) : Inv vm := by
  induction h with
  | initial => exact inv_initial
  | step a h henabled hcond hperform hbound ih =>
    obtain ⟨vm', hrun, hinv⟩ := perform_inv ih henabled hcond
    obtain rfl := Except.ok.inj (hperform.symm.trans hrun)
    exact hinv hbound

theorem Inv.queueAgrees (h : Inv vm) : QueueAgrees vm where
  nodup := h.nodup
  pending_eq := h.pending_eq
  mem_iff := by
    intro e
    constructor
    · intro hmem
      obtain ⟨ev, hev⟩ := h.events_of_mem_queue hmem
      have hevent := h.event e ev hev
      have hposted := (h.mem_queue_iff hev).mp hmem
      exact ⟨ev, hev, by rw [hevent.id_eq]; exact hevent.posted_live hposted, hposted⟩
    · rintro ⟨ev, hev, -, hposted⟩
      exact (h.mem_queue_iff hev).mpr hposted

/-- In a run in which no posting depends on what an earlier one left behind, the queue is what
the history says, everything in the history may happen where it does, and every further step
is defined. -/
theorem run_lawful (h : Run Renewed vm) :
    QueueAgrees vm ∧ Lawful vm.log ∧
      ∀ a, Enabled vm a → Renewed vm a → ∃ vm', perform vm a = .ok vm' := by
  refine ⟨h.inv.queueAgrees, h.inv.lawful, fun a henabled hcond => ?_⟩
  obtain ⟨vm', hrun, -⟩ := perform_inv h.inv henabled hcond
  exact ⟨vm', hrun⟩

/-- A host with memory, and with timers. -/
def ampleHost : Host :=
  { ops := true, memory := true, argsMemory := true, setTimer := true, clearTimer := true,
    insert := true }

/-- A repeating event is posted with an argument and called, and a timer is set, posted and
called. -/
def renewedSteps : List (Action ℕ ℕ) :=
  [.addEvent 7 false false false true true, .post 0 [.other 1] true,
    .setTimeout [.function 8, .other 0, .other 5] ampleHost, .post 1 [] true, .run, .loop, .finish,
    .loop, .finish, .loop]

/-- Both functions are called with their arguments, and `njs_vm_run` returns. -/
theorem run_lawful_renewedSteps :
    ∃ vm, runFrom Renewed initial renewedSteps = some vm ∧
      vm.log.head? = some .returned ∧ QueueAgrees vm ∧ Lawful vm.log := by
  obtain ⟨vm, hvm, hhead⟩ :
      ∃ vm, runFrom Renewed initial renewedSteps = some vm ∧ vm.log.head? = some .returned := by
    have hlog : (runFrom Renewed initial renewedSteps).map (fun vm => vm.log.head?) =
        some (some .returned) := by decide
    exact Option.map_eq_some_iff.mp hlog
  obtain ⟨hqueue, hlawful, -⟩ := run_lawful (Run.initial.runFrom hvm)
  exact ⟨vm, hvm, hhead, hqueue, hlawful⟩

/-- A repeating event is posted with an argument and called, and posted again without
arguments and called. -/
def staleSteps : List (Action ℕ ℕ) :=
  [.addEvent 7 false false false true true, .post 0 [.other 1] true, .run, .loop, .finish, .loop,
    .post 0 [] true, .run, .loop]

/-- The second call has the argument of the first posting. -/
theorem staleSteps_not_lawful :
    ∃ vm, Run (fun _ _ => True) vm ∧
      runFrom (fun _ _ => True) initial staleSteps = some vm ∧ ¬ Lawful vm.log := by
  have hlog : (runFrom (fun _ _ => True) initial staleSteps).map (fun vm => vm.log) =
      some [.called 0 7 [.other 1], .posted 0 [], .returned, .called 0 7 [.other 1],
        .posted 0 [.other 1], .added 0 7 false] := by decide
  obtain ⟨vm, hvm, heq⟩ := Option.map_eq_some_iff.mp hlog
  refine ⟨vm, Run.initial.runFrom hvm, hvm, fun hlawful => ?_⟩
  rw [heq] at hlawful
  have hcall := (hlawful _ _ (List.suffix_refl _)).1
  revert hcall
  decide

end Njs.Events
