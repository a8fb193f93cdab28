import Njs.Json.Reviver

/-!
# Accesses of the reviver's iterator

The properties that the iterator writes after a call are still in the hash of their object,
and there is a state wherever one is used. An element is written where it was before the
call, so it must stay there.
-/

namespace Njs.Json

open Njs.Objects (Name Value Error)

variable {σ : Type} {engine : Engine σ} {heap heap' : Heap} {m m' : Machine σ} {state : State}
  {states : List State} {v : Value} {p : ℕ}

/-- The array still has the element that the reviver is called for, and the call leaves it
where it is: the block is the same, and the element is one of the array. -/
def ElementStays (engine : Engine σ) (m : Machine σ) (state : State) : Prop :=
  ∀ storage, m.heap.storage state.value = some storage →
    ∃ v, storage.elements[state.index]? = some v ∧
      ∀ retval script heap, engine.reviver.apply m.script m.heap state.value
          (decimal state.index) v = (.ok retval, script, heap) →
        heap.hasElement state.value storage.data (storage.start + state.index) = true

/-- If the iteration calls the reviver for an element, the element stays. -/
def KeepsElement (engine : Engine σ) (m : Machine σ) : Prop :=
  ∀ state states, stage m = .call state states → state.keys = none → ElementStays engine m state

/-- A state that the iterator comes back to: there is what the reviver is called for. -/
def State.Pending (heap : Heap) (state : State) : Prop :=
  match state.keys with
  | some keys => (keys[state.index]?).isSome = true ∧
      ∃ p, state.prop = some p ∧ heap.hasSlot state.value p = true
  | none => (heap.storage state.value).isSome = true

/-- The current state: an array is one. -/
def State.Current (heap : Heap) (state : State) : Prop :=
  state.keys = none → (heap.storage state.value).isSome = true

/-- The first state that was pushed is that of an object. -/
def Rooted : List State → Prop
  | [] => False
  | [state] => state.keys.isSome = true
  | _ :: state :: states => Rooted (state :: states)

/-- The invariant of the iterator. -/
structure Inv (m : Machine σ) : Prop where
  current : ∀ state ∈ m.states.head?, state.Current m.heap
  pending : ∀ state ∈ m.below, state.Pending m.heap
  rooted : Rooted m.states

/-! ## Heaps -/

theorem hasSlot_iff : heap.hasSlot v p = true ↔ ∃ name, heap.find v name = some p := by
  unfold Heap.hasSlot Heap.find
  cases heap.container v with
  | none => simp
  | some c =>
    simp only [List.any_eq_true, decide_eq_true_eq, Option.bind_some]
    constructor
    · rintro ⟨⟨name, slot⟩, hentry, rfl⟩
      exact ⟨name, AList.mem_lookup_iff.mpr hentry⟩
    · rintro ⟨name, hlookup⟩
      exact ⟨⟨name, p⟩, AList.mem_lookup_iff.mp hlookup, rfl⟩

/-- What is in a hash stays there. -/
theorem Heap.Keeps.hasSlot (h : heap.Keeps heap') (hslot : heap.hasSlot v p = true) :
    heap'.hasSlot v p = true := by
  obtain ⟨name, hname⟩ := hasSlot_iff.mp hslot
  exact hasSlot_iff.mpr ⟨name, h.find v name p hname⟩

theorem Heap.Keeps.trans {heap'' : Heap} (h : heap.Keeps heap') (h' : heap'.Keeps heap'') :
    heap.Keeps heap'' :=
  ⟨fun v hv => h'.storage v (h.storage v hv),
    fun v name p hp => h'.find v name p (h.find v name p hp)⟩

theorem setProperty_keeps (heap : Heap) (p : ℕ) (retval : Option Value) :
    heap.Keeps (heap.setProperty p retval) :=
  ⟨fun _ h => h, fun _ _ _ h => h⟩

theorem mapArray_keeps (heap : Heap) (v : Value) (f : Storage → Storage) :
    heap.Keeps (heap.mapArray v f) := by
  constructor
  · intro w hw
    unfold Heap.storage Heap.mapArray at *
    by_cases h : w = v
    · subst h
      simp only [Function.update_self]
      rcases hc : heap.container w with - | c
      · rw [hc] at hw
        cases hw
      · rw [hc] at hw
        simpa using hw
    · simpa only [Function.update_of_ne h] using hw
  · intro w name q hq
    unfold Heap.find Heap.mapArray at *
    by_cases h : w = v
    · subst h
      simp only [Function.update_self]
      rcases hc : heap.container w with - | c
      · rw [hc] at hq
        cases hq
      · rw [hc] at hq
        simpa using hq
    · simpa only [Function.update_of_ne h] using hq

theorem State.Pending.keeps (h : state.Pending heap) (hkeeps : heap.Keeps heap') :
    state.Pending heap' := by
  unfold State.Pending at *
  cases hkeys : state.keys with
  | some keys =>
    rw [hkeys] at h
    obtain ⟨hkey, p, hprop, hslot⟩ := h
    exact ⟨hkey, p, hprop, hkeeps.hasSlot hslot⟩
  | none =>
    rw [hkeys] at h
    exact hkeeps.storage _ h

theorem State.Pending.current (h : state.Pending heap) : state.Current heap := by
  intro hkeys
  unfold State.Pending at h
  rw [hkeys] at h
  exact h

/-! ## Iterations -/

/-- A state may change as long as it is one of the same kind. -/
theorem Rooted.replace {state' : State} (h : Rooted (state :: states))
    (hkeys : state'.keys = state.keys) : Rooted (state' :: states) := by
  cases states with
  | nil =>
    unfold Rooted at *
    rwa [hkeys]
  | cons => exact h

/-- What is popped was pending. -/
theorem popParseState_some {state' : State} {states' : List State}
    (hpending : ∀ s ∈ states, s.Pending heap) (hrooted : Rooted (state :: states))
    (h : popParseState (state :: states) = some (state', states')) :
    state'.Pending heap ∧ (∀ s ∈ states', s.Pending heap) ∧ Rooted (state' :: states') := by
  cases states with
  | nil => cases h
  | cons state'' states'' =>
    obtain ⟨rfl, rfl⟩ := Prod.mk.inj (Option.some.inj h)
    exact ⟨hpending _ List.mem_cons_self, fun s hs => hpending s (List.mem_cons_of_mem _ hs),
      hrooted⟩

/-- What an iteration comes to, when the states are in order. -/
def Stage.Sound (m : Machine σ) : Stage → Prop
  | .skip state => state.Current m.heap ∧ Rooted (state :: m.below)
  | .push state _ => state.Pending m.heap ∧ Rooted (state :: m.below)
  | .call state states => state.Pending m.heap ∧ (∀ s ∈ states, s.Pending m.heap) ∧
      Rooted (state :: states)
  | .done => True
  | .fault => False

/-- The property that the loop finds in an object is pending. -/
theorem pending_of_find {keys : List Name} {key : Name} (hkeys : state.keys = some keys)
    (hkey : keys[state.index]? = some key) (hfind : heap.find state.value key = some p) :
    State.Pending heap { state with prop := some p } := by
  unfold State.Pending
  simp only [hkeys, hkey]
  exact ⟨rfl, p, rfl, hasSlot_iff.mpr ⟨key, hfind⟩⟩

theorem objectStage_sound {keys : List Name} (hstates : m.states = state :: states)
    (hkeys : state.keys = some keys) (hpending : ∀ s ∈ states, s.Pending m.heap)
    (hrooted : Rooted (state :: states)) :
    (objectStage m.heap state states keys).Sound m := by
  have hbelow : m.below = states := by rw [Machine.below, hstates, List.tail_cons]
  have hskip : Stage.Sound m (.skip { state with index := state.index + 1 }) := by
    refine ⟨fun h => ?_, ?_⟩
    · rw [hkeys] at h
      cases h
    · rw [hbelow]
      exact hrooted.replace rfl
  unfold objectStage
  cases hkey : keys[state.index]? with
  | none =>
    simp only
    cases hpop : popParseState (state :: states) with
    | none => trivial
    | some popped => exact popParseState_some hpending hrooted hpop
  | some key =>
    simp only
    cases hfind : m.heap.find state.value key with
    | none => exact hskip
    | some p =>
      have hcurrent := pending_of_find hkeys hkey hfind
      have hcall : Stage.Sound m (.call { state with prop := some p } states) :=
        ⟨hcurrent, hpending, hrooted.replace rfl⟩
      simp only
      split_ifs
      · exact hskip
      · split
        · split_ifs
          · refine ⟨hcurrent, ?_⟩
            rw [hbelow]
            exact hrooted.replace rfl
          · exact hcall
        · exact hcall

theorem arrayStage_sound (hstates : m.states = state :: states) (hkeys : state.keys = none)
    (hcurrent : state.Current m.heap) (hpending : ∀ s ∈ states, s.Pending m.heap)
    (hrooted : Rooted (state :: states)) : (arrayStage m.heap state states).Sound m := by
  have hbelow : m.below = states := by rw [Machine.below, hstates, List.tail_cons]
  have harray : state.Pending m.heap := by
    unfold State.Pending
    rw [hkeys]
    exact hcurrent hkeys
  have hcall : Stage.Sound m (.call state states) := ⟨harray, hpending, hrooted⟩
  unfold arrayStage
  split
  · split_ifs
    · refine ⟨harray, ?_⟩
      rw [hbelow]
      exact hrooted
    · exact hcall
  · exact hcall
  · cases hpop : popParseState (state :: states) with
    | some popped => exact popParseState_some hpending hrooted hpop
    | none =>
      -- The state of an array is never the first.
      cases states with
      | nil =>
        unfold Rooted at hrooted
        rw [hkeys] at hrooted
        cases hrooted
      | cons => cases hpop

/-- An iteration uses a state that there is. -/
theorem stage_sound (h : Inv m) : (stage m).Sound m := by
  obtain ⟨hcurrent, hpending, hrooted⟩ := h
  unfold stage
  cases hstates : m.states with
  | nil =>
    rw [hstates] at hrooted
    exact hrooted
  | cons state states =>
    rw [hstates] at hcurrent hrooted
    rw [Machine.below, hstates, List.tail_cons] at hpending
    simp only
    cases hkeys : state.keys with
    | some keys => exact objectStage_sound hstates hkeys hpending hrooted
    | none => exact arrayStage_sound hstates hkeys (hcurrent state rfl) hpending hrooted

/-- The result of an iteration is in order. -/
def Next.Sound : Next σ → Prop
  | .running m => Inv m
  | .fault => False
  | _ => True

/-- A state is pushed on states that are pending. -/
theorem pushParseState_sound (hpending : ∀ s ∈ m.states, s.Pending m.heap)
    (hrooted : Rooted m.states) : (pushParseState engine m v).Sound := by
  have hpush : ∀ keys, State.Current m.heap ⟨v, 0, keys, none⟩ →
      Inv { m with states := ⟨v, 0, keys, none⟩ :: m.states } := by
    intro keys hcurrent
    refine ⟨?_, hpending, ?_⟩
    · intro state hstate
      obtain rfl := Option.some.inj hstate
      exact hcurrent
    · cases hstates : m.states with
      | nil =>
        rw [hstates] at hrooted
        exact hrooted.elim
      | cons state states =>
        rw [hstates] at hrooted
        exact hrooted
  unfold pushParseState
  split_ifs
  · trivial
  · cases hstorage : m.heap.storage v with
    | some storage => exact hpush none fun _ => by rw [hstorage]; rfl
    | none =>
      simp only
      split
      · exact hpush _ fun h => nomatch h
      · trivial

/-- The states after a call, with the next index. -/
theorem inv_called {script : σ} {retval : Option Value} (hcurrent : state.Current heap)
    (hpending : ∀ s ∈ states, s.Pending heap) (hrooted : Rooted (state :: states)) :
    Inv (⟨script, heap, { state with index := state.index + 1 } :: states, retval⟩ :
      Machine σ) where
  current s hs := by
    obtain rfl := Option.some.inj hs
    exact hcurrent
  pending := hpending
  rooted := hrooted.replace rfl

/-- The call for a property is in order. -/
theorem callProperty_sound {keys : List Name} (hkeys : state.keys = some keys)
    (hstate : state.Pending m.heap) (hpending : ∀ s ∈ states, s.Pending m.heap)
    (hrooted : Rooted (state :: states)) : (callProperty engine m state states keys).Sound := by
  have hsome := hstate
  unfold State.Pending at hsome
  rw [hkeys] at hsome
  obtain ⟨hkey, p, hprop, hslot⟩ := hsome
  obtain ⟨key, hkey⟩ := Option.isSome_iff_exists.mp hkey
  have hkeeps := engine.reviver.keeps m.script m.heap state.value key (m.heap.slot p).value
  unfold callProperty
  simp only [hkey, hprop, hslot, Bool.not_true, Bool.false_eq_true, if_false]
  rcases happly : engine.reviver.apply m.script m.heap state.value key (m.heap.slot p).value with
    ⟨result, script, heap⟩
  rw [happly] at hkeeps
  cases result with
  | error e => trivial
  | ok retval =>
    have hall := hkeeps.trans (setProperty_keeps heap p retval)
    simp only [hkeeps.hasSlot hslot, Bool.not_true, Bool.false_eq_true, if_false]
    have hnext := @inv_called _ _ _ _ script retval (hstate.keeps hall).current
      (fun s hs => (hpending s hs).keeps hall) hrooted
    rw [hprop] at hnext
    exact hnext

/-- The call for an element is in order if and only if the element stays. -/
theorem callElement_sound_iff (hkeys : state.keys = none) (hstate : state.Pending m.heap)
    (hpending : ∀ s ∈ states, s.Pending m.heap) (hrooted : Rooted (state :: states)) :
    (callElement engine m state states).Sound ↔ ElementStays engine m state := by
  have hsome := hstate
  unfold State.Pending at hsome
  rw [hkeys] at hsome
  obtain ⟨storage, hstorage⟩ := Option.isSome_iff_exists.mp hsome
  unfold callElement ElementStays
  simp only [hstorage, Option.some.injEq, forall_eq']
  cases hv : storage.elements[state.index]? with
  | none => simp [Next.Sound]
  | some v =>
    have hkeeps := engine.reviver.keeps m.script m.heap state.value (decimal state.index) v
    simp only [Option.some.injEq, exists_eq_left']
    rcases happly : engine.reviver.apply m.script m.heap state.value (decimal state.index) v with
      ⟨result, script, heap⟩
    rw [happly] at hkeeps
    cases result with
    | error e => simp [Next.Sound]
    | ok retval =>
      have hall := hkeeps.trans
        (mapArray_keeps heap state.value fun storage' =>
          { storage' with
            elements := storage'.elements.set (storage.start + state.index - storage'.start)
              retval })
      have hnext := @inv_called _ _ _ _ script retval (hstate.keeps hall).current
        (fun s hs => (hpending s hs).keeps hall) hrooted
      cases hstays : heap.hasElement state.value storage.data (storage.start + state.index) with
      | false => simp [Next.Sound, hstays]
      | true =>
        simp only [Next.Sound, hstays, Bool.not_true, Bool.false_eq_true, if_false]
        refine ⟨fun _ retval' script' heap' h => ?_, fun _ => hnext⟩
        obtain ⟨-, -, rfl⟩ := (Prod.mk.injEq _ _ _ _).mp h |>.imp_right (Prod.mk.injEq _ _ _ _).mp
        exact hstays

/-- An iteration is in order if and only if it calls the reviver for no element that does not
stay. -/
theorem step_sound_iff (h : Inv m) : (step engine m).Sound ↔ KeepsElement engine m := by
  have hsound := stage_sound h
  have hpending := h.pending
  unfold step KeepsElement
  cases hstage : stage m with
  | skip state =>
    rw [hstage] at hsound
    refine ⟨fun _ => nofun, fun _ => ⟨?_, hpending, hsound.2⟩⟩
    intro s hs
    obtain rfl := Option.some.inj hs
    exact hsound.1
  | push state v =>
    rw [hstage] at hsound
    refine ⟨fun _ => nofun, fun _ => pushParseState_sound ?_ hsound.2⟩
    intro s hs
    rcases List.mem_cons.mp hs with rfl | hs
    · exact hsound.1
    · exact hpending s hs
  | call state states =>
    rw [hstage] at hsound
    obtain ⟨hstate, hrest, hrooted⟩ := hsound
    simp only [Stage.call.injEq, and_imp]
    unfold parseIteratorCall
    cases hkeys : state.keys with
    | some keys =>
      refine ⟨fun _ state' states' h _ h' => ?_, fun _ => ?_⟩
      · rw [← h, hkeys] at h'
        cases h'
      · exact callProperty_sound hkeys hstate hrest hrooted
    | none =>
      simp only
      rw [callElement_sound_iff hkeys hstate hrest hrooted]
      constructor
      · rintro hstays state' states' rfl - -
        exact hstays
      · intro hstays
        exact hstays state states rfl rfl hkeys
  | done => exact ⟨fun _ => nofun, fun _ => trivial⟩
  | fault =>
    rw [hstage] at hsound
    exact hsound.elim

/-- A call for an element that does not stay is undefined. -/
theorem callElement_fault (hstate : state.Pending m.heap) (hkeys : state.keys = none)
    (h : ¬ElementStays engine m state) : callElement engine m state states = .fault := by
  unfold State.Pending at hstate
  rw [hkeys] at hstate
  obtain ⟨storage, hstorage⟩ := Option.isSome_iff_exists.mp hstate
  unfold ElementStays at h
  unfold callElement
  simp only [hstorage, Option.some.injEq, forall_eq'] at h ⊢
  cases hv : storage.elements[state.index]? with
  | none => rfl
  | some v =>
    simp only [hv, Option.some.injEq, exists_eq_left'] at h
    rcases happly : engine.reviver.apply m.script m.heap state.value (decimal state.index) v with
      ⟨result, script, heap⟩
    rw [happly] at h
    cases result with
    | error e => exact absurd (fun _ _ _ h => nomatch h) h
    | ok retval =>
      cases hstays : heap.hasElement state.value storage.data (storage.start + state.index) with
      | false => simp only [happly, hstays, Bool.not_false, if_true]
      | true =>
        refine absurd (fun retval' script' heap' hout => ?_) h
        obtain ⟨-, -, rfl⟩ :=
          (Prod.mk.injEq _ _ _ _).mp hout |>.imp_right (Prod.mk.injEq _ _ _ _).mp
        exact hstays

/-- An iteration that calls the reviver for an element that does not stay is undefined. -/
theorem step_fault (h : Inv m) (hnot : ¬KeepsElement engine m) : step engine m = .fault := by
  have hsound := stage_sound h
  unfold KeepsElement at hnot
  push Not at hnot
  obtain ⟨state, states, hstage, hkeys, hstays⟩ := hnot
  rw [hstage] at hsound
  unfold step parseIteratorCall
  simp only [hstage, hkeys]
  exact callElement_fault hsound.1 hkeys hstays

/-! ## Runs -/

/-- The states of a run are in order as long as the elements stay. -/
theorem iterate_sound (h : Inv m) (n : ℕ)
    (hkeeps : ∀ i m', i < n → iterate engine i m = .running m' → KeepsElement engine m') :
    (iterate engine n m).Sound := by
  induction n generalizing m with
  | zero => exact h
  | succ n ih =>
    have hstep := (step_sound_iff h).mpr (hkeeps 0 m (Nat.succ_pos n) rfl)
    unfold iterate
    cases hnext : step engine m with
    | running m₁ =>
      rw [hnext] at hstep
      refine ih hstep fun i m' hi hrun => hkeeps (i + 1) m' (Nat.succ_lt_succ hi) ?_
      unfold iterate
      rw [hnext]
      exact hrun
    | returned v => trivial
    | error e => trivial
    | fault =>
      rw [hnext] at hstep
      exact hstep

theorem iterate_succ {n : ℕ} (h : iterate engine n m = .running m') :
    iterate engine (n + 1) m = step engine m' := by
  induction n generalizing m with
  | zero =>
    obtain rfl := Next.running.inj h
    unfold iterate
    cases step engine m <;> rfl
  | succ n ih =>
    unfold iterate at h ⊢
    cases hnext : step engine m with
    | running m₁ =>
      rw [hnext] at h
      exact ih h
    | returned v =>
      rw [hnext] at h
      cases h
    | error e =>
      rw [hnext] at h
      cases h
    | fault =>
      rw [hnext] at h
      cases h

/-- The states of the iterator at its start are in order. -/
theorem inv_start (script : σ) (heap : Heap) (wrapper : Value) (keys : List Name) :
    Inv (start script heap wrapper keys) where
  current s hs := by
    obtain rfl := Option.some.inj hs
    exact fun h => nomatch h
  pending _ hs := nomatch hs
  rooted := rfl

/-- The iterator makes no access outside the containers, in any run, if and only if the
elements that the reviver is called for stay. -/
theorem reviver_safe_iff (engine : Engine σ) (script : σ) (heap : Heap) (wrapper : Value)
    (keys : List Name) :
    (∀ n, iterate engine n (start script heap wrapper keys) ≠ .fault) ↔
      ∀ n m, iterate engine n (start script heap wrapper keys) = .running m →
        KeepsElement engine m := by
  constructor
  · intro hsafe n
    induction n using Nat.strong_induction_on with
    | _ n ih =>
      intro m hrun
      have hsound := iterate_sound (inv_start script heap wrapper keys) n
        fun i m' hi hm' => ih i hi m' hm'
      rw [hrun] at hsound
      have hnext := hsafe (n + 1)
      rw [iterate_succ hrun] at hnext
      by_contra hnot
      exact hnext (step_fault hsound hnot)
  · intro hkeeps n hfault
    have hsound := iterate_sound (inv_start script heap wrapper keys) n fun i m' _ => hkeeps i m'
    rw [hfault] at hsound
    exact hsound

/-- The heap of the parsed array `[1]`, in an object of its own. -/
def parsedArray : Heap where
  container v :=
    if v = .object 0 then some ⟨none, AList.singleton [] 0⟩
    else if v = .object 1 then some ⟨some ⟨1, 0, [some (.number (.finite 1))]⟩, ∅⟩
    else none
  slot _ := ⟨false, some (.object 1)⟩

/-- `function(k, v) { this.length = 0; return v; }`. -/
def emptying : Reviver Unit where
  apply _ heap this _ v :=
    (.ok v, (), heap.mapArray this fun storage => { storage with elements := [] })
  keeps _ heap this _ _ := mapArray_keeps heap this _

/-- `JSON.parse('[1]', function(k, v) { this.length = 0; return v; })`. -/
theorem not_reviver_safe :
    ¬∀ (engine : Engine Unit) (heap : Heap) (wrapper : Value) (keys : List Name) (n : ℕ),
      iterate engine n (start () heap wrapper keys) ≠ .fault := by
  intro h
  exact h ⟨emptying, fun _ _ => none⟩ parsedArray (.object 0) [[]] 2 rfl

end Njs.Json
