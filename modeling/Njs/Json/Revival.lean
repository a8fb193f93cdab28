import Njs.Json.Internalize

/-!
# The recursion over a parsed value

The arrays and objects of a parsed value are new, so what is done inside one property leaves the
others as they are. The recursion comes to an end for each value that is nested no deeper than
its bound.
-/

namespace Njs.Json

open Njs.Objects (Name Value Error)

variable {heap heap' heap'' : Heap} {changed changed' owned : Set ℕ} {o depth : ℕ}
  {inside : Place → Set ℕ} {t : Tree} {place place' : Place} {places : List Place} {v : Value}
  {x : Option Value} {holes : Bool} {order : VisitOrder} {f : PureReviver} {s s' : Trace}

/-! ## Frames -/

theorem Heap.Frame.refl (heap : Heap) : heap.Frame changed heap :=
  ⟨fun _ _ h _ => h, fun _ _ => rfl, fun _ c h => ⟨c, h, rfl⟩, fun _ _ _ _ _ _ _ => rfl⟩

theorem Heap.Frame.mono (h : heap.Frame changed heap') (hsub : changed ⊆ changed') :
    heap.Frame changed' heap' :=
  ⟨fun v c hc hv => h.container v c hc fun o ho => hv o (hsub ho), h.primitive, h.hash,
    fun v c name p hc hp hnot => h.slot v c name p hc hp fun hmem => hnot (hsub hmem)⟩

theorem Heap.Frame.trans (h : heap.Frame changed heap') (h' : heap'.Frame changed heap'') :
    heap.Frame changed heap'' := by
  constructor
  · intro v c hc hv
    exact h'.container v c (h.container v c hc hv) hv
  · intro v hv
    exact (h'.primitive v hv).trans (h.primitive v hv)
  · intro v c hc
    obtain ⟨c', hc', hhash⟩ := h.hash v c hc
    obtain ⟨c'', hc'', hhash'⟩ := h'.hash v c' hc'
    exact ⟨c'', hc'', hhash'.trans hhash⟩
  · intro v c name p hc hp hnot
    obtain ⟨c', hc', hhash⟩ := h.hash v c hc
    exact (h'.slot v c' name p hc' (hhash ▸ hp) hnot).trans (h.slot v c name p hc hp hnot)

theorem find_eq {c : Container} (hc : heap.container v = some c) (name : Name) :
    heap.find v name = c.hash.lookup name := by
  rw [Heap.find, hc, Option.bind_some]

theorem storage_eq {c : Container} (hc : heap.container v = some c) :
    heap.storage v = c.array := by
  rw [Heap.storage, hc, Option.bind_some]

/-- The names of properties stay. -/
theorem Heap.Frame.find (h : heap.Frame changed heap') {c : Container}
    (hc : heap.container v = some c) (name : Name) : heap'.find v name = heap.find v name := by
  obtain ⟨c', hc', hhash⟩ := h.hash v c hc
  rw [find_eq hc', find_eq hc, hhash]

/-- An object that is apart from what changes. -/
structure Apart (heap : Heap) (changed : Set ℕ) (o : ℕ) : Prop where
  object : o ∉ changed
  slots : ∀ name p, heap.find (.object o) name = some p → p ∉ changed

theorem Heap.Frame.container_eq (h : heap.Frame changed heap') (ho : o ∉ changed) {c : Container}
    (hc : heap.container (.object o) = some c) : heap'.container (.object o) = some c := by
  refine h.container _ c hc fun o' ho' heq => ho ?_
  obtain rfl := Value.object.inj heq
  exact ho'

/-- Such an object keeps its properties. -/
theorem Heap.Frame.get_eq (h : heap.Frame changed heap') {c : Container}
    (hc : heap.container (.object o) = some c) (hapart : Apart heap changed o) (place : Place) :
    heap'.get (.object o) place = heap.get (.object o) place := by
  have hc' := h.container_eq hapart.object hc
  cases place with
  | element i => simp only [Heap.get, storage_eq hc, storage_eq hc']
  | property name =>
    simp only [Heap.get, find_eq hc, find_eq hc']
    cases hp : c.hash.lookup name with
    | none => rfl
    | some p =>
      have hslot := h.slot _ c name p hc hp (hapart.slots name p (by rw [find_eq hc, hp]))
      simp only [Option.bind_some, hslot]

theorem Heap.Frame.live (h : heap.Frame changed heap') {c : Container}
    (hc : heap.container (.object o) = some c) (hapart : Apart heap changed o)
    (hlive : heap.Live (.object o) place) : heap'.Live (.object o) place := by
  have hc' := h.container_eq hapart.object hc
  cases place with
  | element i =>
    unfold Heap.Live at hlive ⊢
    rw [storage_eq hc] at hlive
    rwa [storage_eq hc']
  | property name =>
    obtain ⟨p, hp, hslot⟩ := hlive
    refine ⟨p, (h.find hc name).trans hp, ?_⟩
    rwa [h.slot _ c name p hc (find_eq hc name ▸ hp) (hapart.slots name p hp)]

theorem TreeNode.frame (h : TreeNode heap owned o inside t) (hframe : heap.Frame changed heap')
    (hapart : Apart heap changed o) : TreeNode heap' owned o inside t := by
  obtain ⟨c, hc, hshapes⟩ := h.shapes
  have hfind := hframe.find hc
  refine ⟨⟨c, hframe.container_eq hapart.object hc, hshapes⟩, h.mem, h.sub, h.apart, h.disjoint, ?_⟩
  intro name p hp
  rw [hfind] at hp
  simp only [hfind]
  exact h.slots name p hp

theorem TreeNode.apart_of_disjoint (h : TreeNode heap owned o inside t)
    (hdisjoint : Disjoint owned changed) : Apart heap changed o :=
  ⟨Set.disjoint_left.mp hdisjoint h.mem, fun name p hp =>
    Set.disjoint_left.mp hdisjoint (h.slots name p hp).1⟩

theorem TreeNode.apart_inside (h : TreeNode heap owned o inside t) (place : Place) :
    Apart heap (inside place) o :=
  ⟨h.apart place, fun name p hp => (h.slots name p hp).2.1 place⟩

/-- The values of leaves are no objects. -/
theorem scalar_isPrimitive {y : Value} (h : t.scalar = some y) : isPrimitive y = true := by
  cases t <;> first | (obtain rfl := Option.some.inj h; rfl) | cases h

/-- What changes apart from a value leaves it there. -/
theorem Holds.frame (h : Holds heap depth owned x t) (hframe : heap.Frame changed heap')
    (hdisjoint : Disjoint owned changed) : Holds heap' depth owned x t := by
  have hleaf : (∃ y, t.scalar = some y ∧ x = some y ∧ heap.container y = none) →
      ∃ y, t.scalar = some y ∧ x = some y ∧ heap'.container y = none := by
    rintro ⟨y, ht, hx, hy⟩
    exact ⟨y, ht, hx, (hframe.primitive y (scalar_isPrimitive ht)).trans hy⟩
  induction depth generalizing owned x t with
  | zero => exact hleaf h
  | succ depth ih =>
    rcases h with h | ⟨o, inside, rfl, hnode, hchildren⟩
    · exact Or.inl (hleaf h)
    · have hapart := hnode.apart_of_disjoint hdisjoint
      obtain ⟨c, hc, -⟩ := hnode.shapes
      refine Or.inr ⟨o, inside, rfl, hnode.frame hframe hapart, fun place t' ht' => ?_⟩
      obtain ⟨hlive, hholds⟩ := hchildren place t' ht'
      rw [hframe.get_eq hc hapart]
      refine ⟨hframe.live hc hapart hlive, ih hholds ?_ ?_⟩
      · exact hdisjoint.mono_left (hnode.sub place)
      · rintro ⟨y, ht, hx, hy⟩
        exact ⟨y, ht, hx, (hframe.primitive y (scalar_isPrimitive ht)).trans hy⟩

/-! ## Stores -/

/-- What a store changes. -/
def cell (heap : Heap) (o : ℕ) : Place → Set ℕ
  | .element _ => {o}
  | .property name => {p | heap.find (.object o) name = some p}

theorem mapArray_container (g : Storage → Storage) {c : Container}
    (hc : heap.container v = some c) :
    (heap.mapArray v g).container v = some { c with array := c.array.map g } := by
  simp only [Heap.mapArray, Function.update_self, hc, Option.map_some]

theorem mapArray_container_of_ne (g : Storage → Storage) {w : Value} (h : w ≠ v) :
    (heap.mapArray v g).container w = heap.container w := by
  simp only [Heap.mapArray, Function.update_of_ne h]

theorem store_element (i : ℕ) (r : Value) : heap.store holes v r (.element i) =
    heap.mapArray v (Storage.put holes i r) := rfl

theorem store_property {name : Name} {p : ℕ} (hp : heap.find v name = some p) (r : Value) :
    heap.store holes v r (.property name) = heap.setProperty p (some r) := by
  simp only [Heap.store, hp]

theorem store_missing {name : Name} (hp : heap.find v name = none) (r : Value) :
    heap.store holes v r (.property name) = heap := by
  simp only [Heap.store, hp]

theorem store_frame (holes : Bool) (r : Value) (place : Place) :
    heap.Frame (cell heap o place) (heap.store holes (.object o) r place) := by
  cases place with
  | element i =>
    rw [store_element]
    refine ⟨fun w c hc hw => ?_, fun w hw => ?_, fun w c hc => ?_, fun _ _ _ _ _ _ _ => rfl⟩
    · rwa [mapArray_container_of_ne _ (hw o rfl)]
    · refine mapArray_container_of_ne _ ?_
      rintro rfl
      cases hw
    · by_cases hwo : w = .object o
      · subst hwo
        exact ⟨_, mapArray_container _ hc, rfl⟩
      · exact ⟨c, (mapArray_container_of_ne _ hwo).trans hc, rfl⟩
  | property name =>
    cases hp : heap.find (.object o) name with
    | none =>
      rw [store_missing hp]
      exact .refl heap
    | some p =>
      rw [store_property hp]
      refine ⟨fun _ _ h _ => h, fun _ _ => rfl, fun _ c h => ⟨c, h, rfl⟩, ?_⟩
      intro w c name' q _ _ hq
      have hne : q ≠ p := by
        rintro rfl
        exact hq hp
      exact Function.update_of_ne hne _ _

/-- A store keeps the names of properties and the length of an array. -/
theorem TreeNode.store (h : TreeNode heap owned o inside t) (holes : Bool) (r : Value)
    (place : Place) : TreeNode (heap.store holes (.object o) r place) owned o inside t := by
  obtain ⟨c, hc, hshapes⟩ := h.shapes
  have hframe := @store_frame heap o holes r place
  have hfind := hframe.find hc
  refine ⟨?_, h.mem, h.sub, h.apart, h.disjoint, fun name p hp => ?_⟩
  · cases place with
    | element i =>
      refine ⟨_, mapArray_container _ hc, ?_⟩
      cases t with
      | array elements =>
        obtain ⟨hhash, storage, harray, hlength⟩ := hshapes
        refine ⟨hhash, _, by rw [harray, Option.map_some], ?_⟩
        rw [Storage.put, List.length_set, hlength]
      | object members =>
        obtain ⟨harray, hnames⟩ := hshapes
        exact ⟨by rw [harray, Option.map_none], hnames⟩
      | _ => exact hshapes.elim
    | property name =>
      refine ⟨c, ?_, hshapes⟩
      cases hp : heap.find (.object o) name with
      | none => rwa [store_missing hp]
      | some p => rwa [store_property hp]
  · rw [hfind] at hp
    simp only [hfind]
    exact h.slots name p hp

/-- A store in one property leaves the others. -/
theorem TreeNode.get_store (h : TreeNode heap owned o inside t) (hne : place' ≠ place) (r : Value) :
    (heap.store holes (.object o) r place).get (.object o) place' =
        heap.get (.object o) place' ∧
      (heap.Live (.object o) place' →
        (heap.store holes (.object o) r place).Live (.object o) place') := by
  obtain ⟨c, hc, -⟩ := h.shapes
  cases place with
  | element i =>
    have hc' := mapArray_container (Storage.put holes i r) hc
    rw [store_element]
    cases place' with
    | element j =>
      have hij : i ≠ j := fun hij => hne (congrArg Place.element hij.symm)
      simp only [Heap.get, Heap.Live, storage_eq hc', storage_eq hc]
      cases c.array with
      | none => simp
      | some storage => simp [Storage.put, List.getElem?_set_ne hij]
    | property name =>
      simp only [Heap.get, Heap.Live, find_eq hc', find_eq hc]
      exact ⟨rfl, id⟩
  | property name =>
    cases hp : heap.find (.object o) name with
    | none =>
      rw [store_missing hp]
      exact ⟨rfl, id⟩
    | some p =>
      rw [store_property hp]
      cases place' with
      | element j => exact ⟨rfl, id⟩
      | property name' =>
        have hslot : ∀ q, heap.find (.object o) name' = some q →
            (heap.setProperty p (some r)).slot q = heap.slot q := by
          intro q hq
          refine Function.update_of_ne ?_ _ _
          rintro rfl
          exact hne (congrArg Place.property ((h.slots name q hp).2.2 name' hq))
        have hfind : (heap.setProperty p (some r)).find (.object o) name' =
            heap.find (.object o) name' := rfl
        simp only [Heap.get, Heap.Live, hfind]
        cases hq : heap.find (.object o) name' with
        | none => simp
        | some q => simp [hslot q hq]

/-! ## Totality -/

/-- Between two properties of a node: those that are left hold their parts of the value. -/
structure Loop (heap : Heap) (depth : ℕ) (owned : Set ℕ) (o : ℕ) (inside : Place → Set ℕ)
    (t : Tree) (places : List Place) : Prop where
  node : TreeNode heap owned o inside t
  left : ∀ place ∈ places, ∃ t', t.child place = some t' ∧ heap.Live (.object o) place ∧
    Holds heap depth (inside place) (heap.get (.object o) place) t'

theorem TreeNode.apart_cell (h : TreeNode heap owned o inside t) (place place' : Place) :
    Disjoint (inside place') (cell heap o place) := by
  rw [Set.disjoint_right]
  cases place with
  | element i =>
    rintro p rfl
    exact h.apart place'
  | property name => exact fun p hp => (h.slots name p hp).2.1 place'

theorem TreeNode.cell_subset (h : TreeNode heap owned o inside t) (place : Place) :
    cell heap o place ⊆ owned := by
  cases place with
  | element i =>
    rintro p rfl
    exact h.mem
  | property name => exact fun p hp => (h.slots name p hp).1

/-- A property is revived: something is done inside it, and it becomes the result. -/
theorem Loop.step (h : Loop heap depth owned o inside t (place :: places))
    (hnodup : (place :: places).Nodup) (hframe : heap.Frame (inside place) heap') (holes : Bool)
    (r : Value) : Loop (heap'.store holes (.object o) r place) depth owned o inside t places := by
  obtain ⟨c, hc, -⟩ := h.node.shapes
  have hapart := h.node.apart_inside place
  have hnode := h.node.frame hframe hapart
  refine ⟨hnode.store holes r place, fun place' hplace' => ?_⟩
  have hne : place' ≠ place := by
    rintro rfl
    exact (List.nodup_cons.mp hnodup).1 hplace'
  obtain ⟨t', ht', hlive, hholds⟩ := h.left place' (List.mem_cons_of_mem _ hplace')
  obtain ⟨hget, hkeeps⟩ := @TreeNode.get_store heap' owned o inside t place place' holes hnode hne r
  refine ⟨t', ht', hkeeps (hframe.live hc hapart hlive), ?_⟩
  rw [hget, hframe.get_eq hc hapart]
  exact (hholds.frame hframe (h.node.disjoint place' place hne)).frame (store_frame holes r place)
    (hnode.apart_cell place place')

theorem child_isSome_element {elements : List Tree} :
    ((Tree.array elements).child place).isSome = true ↔
      ∃ i < elements.length, place = .element i := by
  cases place with
  | element i => simp [Tree.child]
  | property name => simp [Tree.child]

theorem child_isSome_property {members : List (Name × Tree)} :
    ((Tree.object members).child place).isSome = true ↔
      ∃ name ∈ members.map Prod.fst, place = .property name := by
  cases place with
  | element i => simp [Tree.child]
  | property name =>
    simp only [Tree.child, Option.isSome_map, List.find?_isSome, Place.property.injEq,
      decide_eq_true_eq, List.mem_map]
    constructor
    · rintro ⟨m, hm, rfl⟩
      exact ⟨m.1, ⟨m, hm, rfl⟩, rfl⟩
    · rintro ⟨_, ⟨m, hm, rfl⟩, rfl⟩
      exact ⟨m, hm, rfl⟩

/-- The properties that are revived in a node are those of its value, each of them once. -/
theorem TreeNode.places_spec (h : TreeNode heap owned o inside t)
    (hlive : ∀ place t', t.child place = some t' → heap.Live (.object o) place)
    (order : VisitOrder) : (heap.places order (.object o)).Nodup ∧
      ∀ place, place ∈ heap.places order (.object o) ↔ (t.child place).isSome = true := by
  obtain ⟨c, hc, hshapes⟩ := h.shapes
  cases t with
  | array elements =>
    obtain ⟨-, storage, harray, hlength⟩ := hshapes
    simp only [Heap.places, hc, harray]
    refine ⟨List.nodup_range.map fun _ _ => Place.element.inj, fun place => ?_⟩
    rw [child_isSome_element, List.mem_map, hlength]
    simp only [List.mem_range, eq_comm]
  | object members =>
    obtain ⟨harray, hnames⟩ := hshapes
    have hkeys : order.keys heap c = order.visit c.hash.keys := by
      refine List.filter_eq_self.mpr fun name hname => ?_
      have hmem : name ∈ members.map Prod.fst :=
        hnames.mem_iff.mp ((order.perm c.hash.keys).mem_iff.mp hname)
      obtain ⟨t', ht'⟩ := Option.isSome_iff_exists.mp
        (child_isSome_property.mpr ⟨name, hmem, rfl⟩)
      obtain ⟨p, hp, hslot⟩ := hlive _ t' ht'
      rw [find_eq hc] at hp
      rw [hp, Option.any_some, hslot]
      rfl
    simp only [Heap.places, hc, harray, hkeys]
    refine ⟨((order.perm c.hash.keys).nodup_iff.mpr c.hash.nodupKeys).map
      fun _ _ => Place.property.inj, fun place => ?_⟩
    rw [child_isSome_property, List.mem_map]
    constructor
    · rintro ⟨name, hname, rfl⟩
      exact ⟨name, hnames.mem_iff.mp ((order.perm c.hash.keys).mem_iff.mp hname), rfl⟩
    · rintro ⟨name, hname, rfl⟩
      exact ⟨name, (order.perm c.hash.keys).mem_iff.mpr (hnames.mem_iff.mpr hname), rfl⟩
  | _ => exact hshapes.elim

/-- The loop over the properties of a node, at its start. -/
theorem TreeNode.loop (h : TreeNode heap owned o inside t)
    (hchildren : ∀ place t', t.child place = some t' → heap.Live (.object o) place ∧
      Holds heap depth (inside place) (heap.get (.object o) place) t') (order : VisitOrder) :
    (heap.places order (.object o)).Nodup ∧
      Loop heap depth owned o inside t (heap.places order (.object o)) := by
  obtain ⟨hnodup, hmem⟩ := h.places_spec (fun place t' ht' => (hchildren place t' ht').1) order
  refine ⟨hnodup, h, fun place hplace => ?_⟩
  obtain ⟨t', ht'⟩ := Option.isSome_iff_exists.mp ((hmem place).mp hplace)
  exact ⟨t', ht', hchildren place t' ht'⟩

theorem PureReviver.call_frame (f : PureReviver) (holder : Value) (place : Place)
    (x : Option Value) (s : Trace) : s.heap.Frame changed (f.call holder place x s).2.heap :=
  (f.unchanged s.heap holder place.key x).mono (Set.empty_subset changed)

/-- What is done for the properties of a node stays in the node. -/
theorem reviveAll_total {revive : Place → Trace → Option (Value × Trace)}
    (hrevive : ∀ place s t', Holds s.heap depth (inside place) (s.heap.get (.object o) place) t' →
      ∃ r s', revive place s = some (r, s') ∧ s.heap.Frame (inside place) s'.heap)
    (h : Loop s.heap depth owned o inside t places) (hnodup : places.Nodup) :
    ∃ s', reviveAll holes revive (.object o) places s = some s' ∧ s.heap.Frame owned s'.heap := by
  induction places generalizing s with
  | nil => exact ⟨s, rfl, .refl _⟩
  | cons place places ih =>
    obtain ⟨t', -, -, hholds⟩ := h.left place List.mem_cons_self
    obtain ⟨r, s', hsome, hframe⟩ := hrevive place s t' hholds
    have hstep := h.step hnodup hframe holes r
    obtain ⟨s'', hrest, hframe'⟩ := ih (s := ⟨s'.heap.store holes (.object o) r place, s'.calls⟩)
      hstep (List.nodup_cons.mp hnodup).2
    refine ⟨s'', ?_, (hframe.mono (h.node.sub place)).trans (.trans ?_ hframe')⟩
    · rw [reviveAll, hsome, Option.bind_some, hrest]
    · have hnode := h.node.frame hframe (h.node.apart_inside place)
      exact (store_frame holes r place).mono (hnode.cell_subset place)

/-- The call for a property, behind those for what is in its value. -/
theorem internalize_eq {holder y : Value} (hget : s.heap.get holder place = some y)
    (hall : reviveAll holes (internalize f order holes depth y) y (s.heap.places order y) s =
      some s') : internalize f order holes (depth + 1) holder place s =
      some (f.call holder place (some y) s') := by
  rw [internalize, hget]
  simp only [hall, Option.map_some]

/-- A value in which nothing is revived. -/
theorem internalize_leaf {holder y : Value} (hget : s.heap.get holder place = some y)
    (hplaces : s.heap.places order y = []) : internalize f order holes (depth + 1) holder place s =
      some (f.call holder place (some y) s) :=
  internalize_eq hget (by rw [hplaces, reviveAll])

theorem places_of_none {y : Value} (h : heap.container y = none) : heap.places order y = [] := by
  simp only [Heap.places, h]

/-- The recursion comes to an end, and changes nothing outside of the value. -/
theorem internalize_total (f : PureReviver) (order : VisitOrder) (holes : Bool) {holder : Value}
    (h : Holds s.heap depth owned (s.heap.get holder place) t) :
    ∃ r s', internalize f order holes (depth + 1) holder place s = some (r, s') ∧
      s.heap.Frame owned s'.heap := by
  induction depth generalizing owned place t s holder with
  | zero =>
    obtain ⟨y, -, hy, hnone⟩ := h
    exact ⟨_, _, internalize_leaf hy (places_of_none hnone), f.call_frame holder place (some y) s⟩
  | succ depth ih =>
    rcases h with ⟨y, -, hy, hnone⟩ | ⟨o, inside, hx, hnode, hchildren⟩
    · exact ⟨_, _, internalize_leaf hy (places_of_none hnone), f.call_frame holder place (some y) s⟩
    · obtain ⟨hnodup, hloop⟩ := hnode.loop hchildren order
      obtain ⟨s', hall, hframe⟩ := @reviveAll_total owned o depth inside t _ holes s
        (internalize f order holes (depth + 1) (.object o)) (fun place s t' h => ih h) hloop hnodup
      exact ⟨_, _, internalize_eq hx hall,
        hframe.trans (f.call_frame holder place (some (.object o)) s')⟩

end Njs.Json
