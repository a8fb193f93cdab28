import Njs.Json.Revival
import Njs.Json.ReviverSafety

/-!
# The iterator and the recursion

The states of `njs_json_parse_iterator` are the properties that the recursion is inside of. When
the iterator comes back to a state, it does what the recursion does there, except that an element
of an array becomes `undefined` where ECMAScript deletes it.
-/

namespace Njs.Json

open Njs.Objects (Name Value Error)

variable {heap heap' : Heap} {owned : Set ℕ} {o holder depth i : ℕ} {inside : Place → Set ℕ}
  {t : Tree} {place : Place} {places : List Place} {x : Option Value} {order : VisitOrder}
  {f : PureReviver} {calls : List ReviverCall} {s : Trace} {state : State} {states : List State}
  {retval : Option Value} {keys : Option (List Name)} {m m' m'' : Machine (List ReviverCall)}

/-! ## Runs -/

/-- The iterator comes from a state to another one. -/
def Leads (f : PureReviver) (order : VisitOrder) (m m' : Machine (List ReviverCall)) : Prop :=
  ∃ n, iterate (f.engine order) n m = .running m'

theorem Leads.refl (m : Machine (List ReviverCall)) : Leads f order m m := ⟨0, rfl⟩

theorem Leads.head (hstep : step (f.engine order) m = .running m') (h : Leads f order m' m'') :
    Leads f order m m'' := by
  obtain ⟨n, hn⟩ := h
  refine ⟨n + 1, ?_⟩
  rw [iterate, hstep]
  exact hn

theorem Leads.trans (h : Leads f order m m') (h' : Leads f order m' m'') :
    Leads f order m m'' := by
  obtain ⟨n, hn⟩ := h
  induction n generalizing m with
  | zero =>
    obtain rfl := Next.running.inj hn
    exact h'
  | succ n ih =>
    unfold iterate at hn
    cases hstep : step (f.engine order) m with
    | running m₁ =>
      rw [hstep] at hn
      exact .head hstep (ih hn)
    | returned v =>
      rw [hstep] at hn
      cases hn
    | error e =>
      rw [hstep] at hn
      cases hn
    | fault =>
      rw [hstep] at hn
      cases hn

/-! ## Calls -/

/-- The state is at a property. -/
def State.At (state : State) : Place → Prop
  | .element i => state.keys = none ∧ state.index = i
  | .property name => ∃ names, state.keys = some names ∧ names[state.index]? = some name

/-- The property of the state was looked up. -/
def State.Found (heap : Heap) (state : State) : Place → Prop
  | .element _ => True
  | .property name => ∃ p, heap.find state.value name = some p ∧ state.prop = some p

/-- The state behind a call. -/
def State.next (state : State) : State := { state with index := state.index + 1 }

/-- The element at an index of a block. -/
theorem setElement_eq {storage : Storage} {v : Value} (h : heap.storage v = some storage)
    (i : ℕ) (r : Value) :
    heap.setElement v (storage.start + i) (some r) = heap.store false v r (.element i) := by
  obtain ⟨c, hc, harray⟩ := Option.bind_eq_some_iff.mp h
  have hput : c.array.map (fun other => ({ other with
      elements := other.elements.set (storage.start + i - other.start) (some r) } : Storage)) =
        c.array.map (Storage.put false i r) := by
    rw [harray, Option.map_some, Option.map_some, Nat.add_sub_cancel_left]
    rfl
  unfold Heap.setElement Heap.mapArray
  rw [store_element]
  unfold Heap.mapArray
  simp only [hc, Option.map_some, hput]

/-- The call for the property of a state. -/
theorem step_call (hstage : stage m = .call state states) (hvalue : state.value = .object holder)
    (hat : state.At place) (hfound : state.Found m.heap place)
    (hlive : m.heap.Live (.object holder) place)
    (hget : m.heap.get (.object holder) place = x) :
    step (f.engine order) m =
      .running ⟨(f.call (.object holder) place x ⟨m.heap, m.script⟩).2.calls,
        (f.call (.object holder) place x ⟨m.heap, m.script⟩).2.heap.store false (.object holder)
          (f.call (.object holder) place x ⟨m.heap, m.script⟩).1 place,
        state.next :: states, some (f.call (.object holder) place x ⟨m.heap, m.script⟩).1⟩ := by
  have hframe := f.unchanged m.heap (.object holder) place.key x
  unfold step
  simp only [hstage]
  cases place with
  | element i =>
    obtain ⟨hkeys, rfl⟩ := hat
    obtain ⟨storage, hstorage, hlt⟩ := hlive
    obtain ⟨v, hv⟩ : ∃ v, storage.elements[state.index]? = some v :=
      ⟨_, List.getElem?_eq_getElem hlt⟩
    obtain rfl : v = x := by
      simpa only [Heap.get, hstorage, Option.bind_some, hv, Option.join_some] using hget
    have hstorage' : (f.apply m.heap (.object holder) (decimal state.index) v).2.storage
        (.object holder) = some storage := by
      obtain ⟨c, hc, harray⟩ := Option.bind_eq_some_iff.mp hstorage
      exact (storage_eq (hframe.container _ c hc fun _ ho => ho.elim)).trans harray
    have hstays : (f.apply m.heap (.object holder) (decimal state.index) v).2.hasElement
        (.object holder) storage.data (storage.start + state.index) = true := by
      simp [Heap.hasElement, hstorage', hlt]
    simp only [parseIteratorCall, hkeys, callElement, hvalue, hstorage, hv, PureReviver.engine,
      PureReviver.reviver, hstays, Bool.not_true, Bool.false_eq_true, if_false,
      setElement_eq hstorage']
    simp only [PureReviver.call, Place.key, State.next, hvalue, hkeys]
  | property name =>
    obtain ⟨names, hkeys, hname⟩ := hat
    obtain ⟨p, hp, hprop⟩ := hfound
    obtain ⟨p', hp', hslot⟩ := hlive
    rw [hvalue] at hp
    obtain rfl := Option.some.inj (hp.symm.trans hp')
    obtain rfl : (m.heap.slot p).value = x := by
      simpa [Heap.get, hp, hslot] using hget
    obtain ⟨c, hc, -⟩ := Option.bind_eq_some_iff.mp hp
    have hfind := (hframe.find hc name).trans hp
    have hhas := hasSlot_iff.mpr ⟨name, hp⟩
    have hhas' := hasSlot_iff.mpr ⟨name, hfind⟩
    simp only [parseIteratorCall, hkeys, callProperty, hname, hprop, hvalue, hhas,
      PureReviver.engine, PureReviver.reviver, Bool.not_true, Bool.false_eq_true, if_false]
    simp only [Place.key] at hhas' hfind
    simp only [hhas', Bool.not_true, Bool.false_eq_true, if_false, PureReviver.call, Place.key,
      State.next, hvalue, hkeys, hprop, store_property hfind]

/-! ## The parts of a value -/

theorem ne_nil_iff_exists_mem {α : Type} {l : List α} : l ≠ [] ↔ ∃ a, a ∈ l :=
  ⟨List.exists_mem_of_ne_nil l, fun ⟨_, ha⟩ => List.ne_nil_of_mem ha⟩

/-- A value is pushed if something is revived in it. -/
theorem TreeNode.isNonEmpty_iff (h : TreeNode heap owned o inside t)
    (hlive : ∀ place t', t.child place = some t' → heap.Live (.object o) place)
    (order : VisitOrder) : isNonEmpty heap (some (.object o)) = true ↔
      heap.places order (.object o) ≠ [] := by
  obtain ⟨-, hmem⟩ := h.places_spec hlive order
  obtain ⟨c, hc, hshapes⟩ := h.shapes
  have hplaces : heap.places order (.object o) ≠ [] ↔ ∃ place, (t.child place).isSome = true := by
    rw [ne_nil_iff_exists_mem]
    exact exists_congr hmem
  rw [hplaces]
  simp only [isNonEmpty, Option.bind_some, hc]
  cases t with
  | array elements =>
    obtain ⟨hhash, storage, harray, hlength⟩ := hshapes
    have hentries : c.hash.entries = [] := by
      rw [hhash]
      rfl
    have hiff : storage.elements ≠ [] ↔ 0 < elements.length := by
      rw [← hlength, List.length_pos_iff]
    simp only [hentries, harray, Option.any_some, ne_eq, not_true_eq_false, decide_false,
      Bool.false_or, decide_eq_true_eq]
    rw [← ne_eq, hiff]
    simp only [child_isSome_element]
    constructor
    · intro hpos
      exact ⟨_, 0, hpos, rfl⟩
    · rintro ⟨-, i, hi, -⟩
      omega
  | object members =>
    obtain ⟨harray, hnames⟩ := hshapes
    have hiff : c.hash.entries ≠ [] ↔ members.map Prod.fst ≠ [] := by
      have hkeys : c.hash.entries = [] ↔ c.hash.keys = [] := by
        rw [AList.keys, List.keys, List.map_eq_nil_iff]
      rw [ne_eq, hkeys, ne_eq, not_iff_not]
      constructor
      · intro hnil
        exact (hnil ▸ hnames).nil_eq.symm
      · intro hnil
        exact (hnil ▸ hnames).eq_nil
    simp only [harray, Option.any_none, Bool.or_false, decide_eq_true_eq]
    rw [hiff, ne_nil_iff_exists_mem]
    simp only [child_isSome_property]
    constructor
    · rintro ⟨name, hname⟩
      exact ⟨_, name, hname, rfl⟩
    · rintro ⟨-, name, hname, -⟩
      exact ⟨name, hname⟩
  | _ => exact hshapes.elim

/-- The keys of a state are the properties that are revived. -/
def Lists (places : List Place) : Option (List Name) → Prop
  | none => ∃ n, places = (List.range n).map .element
  | some names => places = names.map .property

theorem Lists.at {v : Value} {prop : Option ℕ} (h : Lists places keys)
    (hplace : places[i]? = some place) : State.At ⟨v, i, keys, prop⟩ place := by
  cases keys with
  | none =>
    obtain ⟨n, rfl⟩ := h
    obtain ⟨j, hj, rfl⟩ : ∃ j, (List.range n)[i]? = some j ∧ Place.element j = place := by
      simpa using hplace
    obtain ⟨-, rfl⟩ := List.getElem?_eq_some_iff.mp hj
    exact ⟨rfl, (List.getElem_range _).symm⟩
  | some names =>
    obtain rfl := h
    obtain ⟨name, hname, rfl⟩ : ∃ name, names[i]? = some name ∧ Place.property name = place := by
      simpa using hplace
    exact ⟨names, rfl, hname⟩

/-! ## Stages -/

/-- Where the iterator goes from a property: into its value, or to the call. -/
def Stage.enter (heap : Heap) (state : State) (states : List State) : Option Value → Stage
  | some v => if isNonEmpty heap (some v) then .push state v else .call state states
  | none => .call state states

theorem stage_at (hstates : m.states = state :: states) (hvalue : state.value = .object holder)
    (hat : state.At place) (hlive : m.heap.Live (.object holder) place)
    (hget : m.heap.get (.object holder) place = x) :
    ∃ prop, State.Found m.heap { state with prop := prop } place ∧
      stage m = .enter m.heap { state with prop := prop } states x := by
  cases place with
  | element i =>
    obtain ⟨hkeys, rfl⟩ := hat
    obtain ⟨storage, hstorage, hlt⟩ := hlive
    obtain ⟨v, hv⟩ : ∃ v, storage.elements[state.index]? = some v :=
      ⟨_, List.getElem?_eq_getElem hlt⟩
    obtain rfl : v = x := by
      simpa only [Heap.get, hstorage, Option.bind_some, hv, Option.join_some] using hget
    refine ⟨state.prop, trivial, ?_⟩
    simp only [stage, hstates, hkeys, arrayStage, hvalue, hstorage, Option.bind_some, hv]
    cases v <;> simp only [Stage.enter, ← hkeys, ← hvalue]
  | property name =>
    obtain ⟨names, hkeys, hname⟩ := hat
    obtain ⟨p, hp, hslot⟩ := hlive
    obtain rfl : (m.heap.slot p).value = x := by
      simpa [Heap.get, hp, hslot] using hget
    refine ⟨some p, ⟨p, by rwa [hvalue], rfl⟩, ?_⟩
    simp only [stage, hstates, hkeys, objectStage, hname, hvalue, hp, hslot, Bool.false_eq_true,
      if_false]
    cases (m.heap.slot p).value <;> simp only [Stage.enter]

theorem State.At.withProp (h : state.At place) (prop : Option ℕ) :
    State.At { state with prop := prop } place := by
  cases place <;> exact h

/-- Behind the last property the iterator comes back to the state below. -/
theorem stage_past {node holding : State} (hstates : m.states = node :: holding :: states)
    (hvalue : node.value = .object o) (hnode : TreeNode m.heap owned o inside t)
    (hlists : Lists places node.keys) (hindex : node.index = places.length)
    (hmem : ∀ place, place ∈ places ↔ (t.child place).isSome = true) :
    stage m = .call holding states := by
  obtain ⟨c, hc, hshapes⟩ := hnode.shapes
  unfold stage
  simp only [hstates]
  cases hkeys : node.keys with
  | none =>
    rw [hkeys] at hlists
    obtain ⟨n, rfl⟩ := hlists
    have hnone : (m.heap.storage node.value).bind (fun storage => storage.elements[node.index]?) =
        none := by
      rw [hvalue, storage_eq hc, hindex, List.length_map, List.length_range]
      cases t with
      | array elements =>
        obtain ⟨-, storage, harray, hlength⟩ := hshapes
        rw [harray, Option.bind_some, List.getElem?_eq_none_iff, hlength]
        by_contra hlt
        have hchild := (hmem (.element n)).mpr
          (child_isSome_element.mpr ⟨n, Nat.lt_of_not_le hlt, rfl⟩)
        simp at hchild
      | object members => rw [hshapes.1, Option.bind_none]
      | _ => exact hshapes.elim
    simp only [arrayStage, hnone, popParseState]
  | some names =>
    rw [hkeys] at hlists
    obtain rfl := hlists
    have hnone : names[node.index]? = none := by
      rw [hindex, List.length_map, List.getElem?_eq_none_iff]
    simp only [objectStage, hnone, popParseState]

/-- The state of an array or object of a parsed value. -/
theorem push_step (f : PureReviver) (order : VisitOrder)
    (hstage : stage m = .push state (.object o)) (hdepth : m.below.length + 1 < maxDepth)
    (hnode : TreeNode m.heap owned o inside t) : ∃ keys,
      Lists (m.heap.places order (.object o)) keys ∧ step (f.engine order) m =
        .running { m with states := ⟨.object o, 0, keys, none⟩ :: state :: m.below } := by
  obtain ⟨c, hc, -⟩ := hnode.shapes
  have hlength : ¬ (state :: m.below).length ≥ maxDepth := by
    rw [List.length_cons]
    omega
  unfold step
  simp only [hstage, pushParseState, hlength, if_false, storage_eq hc]
  cases harray : c.array with
  | some storage =>
    refine ⟨none, ⟨storage.elements.length, ?_⟩, rfl⟩
    simp only [Heap.places, hc, harray]
  | none =>
    refine ⟨some (order.keys m.heap c), ?_, ?_⟩
    · simp only [Lists, Heap.places, hc, harray]
    · simp only [PureReviver.engine, hc, Option.map_some]

/-! ## The recursion -/

/-- What the iterator does for a property: what the recursion does. -/
def Visits (f : PureReviver) (order : VisitOrder) (depth holder : ℕ) (place : Place)
    (owned : Set ℕ) (s : Trace) (state : State) (states : List State) (retval : Option Value) :
    Prop :=
  ∃ r s' prop, internalize f order false depth (.object holder) place s = some (r, s') ∧
    s.heap.Frame owned s'.heap ∧
    Leads f order ⟨s.calls, s.heap, state :: states, retval⟩
      ⟨s'.calls, s'.heap.store false (.object holder) r place,
        { state.next with prop := prop } :: states, some r⟩

/-- The properties of an array or object are visited one after another. -/
theorem visit_all (done : List Place) (states : List State) (hlists : Lists (done ++ places) keys)
    (hvisit : ∀ place s t' state retval, state.value = .object o → state.At place →
      s.heap.Live (.object o) place → (∃ c, s.heap.container (.object o) = some c) →
      Apart s.heap (inside place) o →
      Holds s.heap depth (inside place) (s.heap.get (.object o) place) t' →
      Visits f order (depth + 1) o place (inside place) s state states retval)
    (h : Loop s.heap depth owned o inside t places) (hnodup : places.Nodup)
    (prop : Option ℕ) (retval : Option Value) :
    ∃ s' prop' retval', reviveAll false (internalize f order false (depth + 1) (.object o))
        (.object o) places s = some s' ∧ s.heap.Frame owned s'.heap ∧
      TreeNode s'.heap owned o inside t ∧
      Leads f order ⟨s.calls, s.heap, ⟨.object o, done.length, keys, prop⟩ :: states, retval⟩
        ⟨s'.calls, s'.heap, ⟨.object o, (done ++ places).length, keys, prop'⟩ :: states,
          retval'⟩ := by
  induction places generalizing done s prop retval with
  | nil =>
    rw [List.append_nil]
    exact ⟨s, prop, retval, rfl, .refl _, h.node, .refl _⟩
  | cons place places ih =>
    obtain ⟨t', -, hlive, hholds⟩ := h.left place List.mem_cons_self
    obtain ⟨c, hc, -⟩ := h.node.shapes
    have hapart := h.node.apart_inside place
    have hat : State.At ⟨.object o, done.length, keys, prop⟩ place :=
      hlists.at (by rw [List.getElem?_append_right le_rfl, Nat.sub_self]; rfl)
    obtain ⟨r, s', prop', hsome, hframe, hfirst⟩ :=
      hvisit place s t' _ retval rfl hat hlive ⟨c, hc⟩ hapart hholds
    rw [List.append_cons] at hlists ⊢
    obtain ⟨s'', prop'', retval'', hrest, hframe', hnode, hleads⟩ :=
      ih (s := ⟨s'.heap.store false (.object o) r place, s'.calls⟩) (done ++ [place]) hlists
        (h.step hnodup hframe false r) (List.nodup_cons.mp hnodup).2 prop' (some r)
    rw [List.length_append, List.length_singleton] at hleads
    refine ⟨s'', prop'', retval'', ?_, ?_, hnode, hfirst.trans hleads⟩
    · rw [reviveAll, hsome, Option.bind_some, hrest]
    · have hcell := (TreeNode.frame h.node hframe hapart).cell_subset place
      exact (hframe.mono (h.node.sub place)).trans
        (((store_frame false r place).mono hcell).trans hframe')

/-- A value in which nothing is revived. -/
theorem visit_leaf {y : Value} (hvalue : state.value = .object holder) (hat : state.At place)
    (hlive : s.heap.Live (.object holder) place) (hy : s.heap.get (.object holder) place = some y)
    (hplaces : s.heap.places order y = []) (hempty : isNonEmpty s.heap (some y) = false) :
    Visits f order (depth + 1) holder place owned s state states retval := by
  obtain ⟨prop, hfound, hstage⟩ := @stage_at holder place (some y) state states
    ⟨s.calls, s.heap, state :: states, retval⟩ rfl hvalue hat hlive hy
  simp only [Stage.enter, hempty, Bool.false_eq_true, if_false] at hstage
  exact ⟨_, _, prop, internalize_leaf hy hplaces, f.call_frame _ _ _ _,
    .head (step_call hstage hvalue (hat.withProp prop) hfound hlive hy) (.refl _)⟩

theorem isNonEmpty_of_none {y : Value} (h : heap.container y = none) :
    isNonEmpty heap (some y) = false := by
  rw [isNonEmpty, Option.bind_some, h]

theorem State.Found.frame {changed : Set ℕ} (h : state.Found heap place)
    (hframe : heap.Frame changed heap') (hvalue : state.value = .object holder)
    (hcontainer : ∃ c, heap.container (.object holder) = some c) : state.Found heap' place := by
  cases place with
  | element i => trivial
  | property name =>
    obtain ⟨c, hc⟩ := hcontainer
    obtain ⟨p, hp, hprop⟩ := h
    rw [hvalue] at hp
    refine ⟨p, ?_, hprop⟩
    rw [hvalue, hframe.find hc, hp]

/-- The iterator does what the recursion does. -/
theorem visit (hdepth : states.length + 1 + depth ≤ maxDepth)
    (hvalue : state.value = .object holder) (hat : state.At place)
    (hlive : s.heap.Live (.object holder) place)
    (hcontainer : ∃ c, s.heap.container (.object holder) = some c)
    (hapart : Apart s.heap owned holder)
    (hholds : Holds s.heap depth owned (s.heap.get (.object holder) place) t) :
    Visits f order (depth + 1) holder place owned s state states retval := by
  induction depth generalizing owned place t s holder state states retval with
  | zero =>
    obtain ⟨y, -, hy, hnone⟩ := hholds
    exact visit_leaf hvalue hat hlive hy (places_of_none hnone) (isNonEmpty_of_none hnone)
  | succ depth ih =>
    rcases hholds with ⟨y, -, hy, hnone⟩ | ⟨o, inside, hx, hnode, hchildren⟩
    · exact visit_leaf hvalue hat hlive hy (places_of_none hnone) (isNonEmpty_of_none hnone)
    · have hlives := fun place t' ht' => (hchildren place t' ht').1
      have hiff := hnode.isNonEmpty_iff hlives order
      by_cases hplaces : s.heap.places order (.object o) = []
      · refine visit_leaf hvalue hat hlive hx hplaces ?_
        rw [Bool.eq_false_iff, ne_eq, hiff]
        exact not_not_intro hplaces
      · obtain ⟨hnodup, hloop⟩ := hnode.loop hchildren order
        obtain ⟨-, hmem⟩ := hnode.places_spec hlives order
        obtain ⟨c, hc⟩ := hcontainer
        -- The state of the value is pushed.
        obtain ⟨prop, hfound, hstage⟩ := @stage_at holder place (some (.object o)) state states
          ⟨s.calls, s.heap, state :: states, retval⟩ rfl hvalue hat hlive hx
        simp only [Stage.enter, hiff.mpr hplaces, if_true] at hstage
        obtain ⟨keys, hlists, hpush⟩ := push_step f order hstage
          (by simp only [Machine.below, List.tail_cons]; omega) hnode
        -- Its properties are visited.
        obtain ⟨s', prop', retval', hall, hframe, hnode', hleads⟩ :=
          visit_all [] ({ state with prop := prop } :: states) hlists
            (fun place s t' state' retval hvalue' hat' hlive' hcontainer' hapart' hholds' =>
              ih (by rw [List.length_cons]; omega) hvalue' hat' hlive' hcontainer' hapart' hholds')
            hloop hnodup none retval
        -- The iterator comes back, and calls the reviver for the value.
        have hback := @stage_past owned o inside t _ states
          ⟨s'.calls, s'.heap, ⟨.object o, (s.heap.places order (.object o)).length, keys, prop'⟩ ::
            { state with prop := prop } :: states, retval'⟩ _ _ rfl rfl hnode' hlists rfl hmem
        have hget' : s'.heap.get (.object holder) place = some (.object o) :=
          (hframe.get_eq hc hapart place).trans hx
        have hfound' := hfound.frame hframe hvalue ⟨c, hc⟩
        have hlive' := hframe.live hc hapart hlive
        exact ⟨_, _, prop, internalize_eq hx hall,
          hframe.trans (f.call_frame (.object holder) place (some (.object o)) s'),
          .head hpush (hleads.trans (.head
            (step_call hback hvalue (hat.withProp prop) hfound' hlive' hget') (.refl _)))⟩

end Njs.Json
