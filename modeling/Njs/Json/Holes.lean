import Njs.Json.Traversal

/-!
# Elements that are deleted

The recursion of ECMAScript deletes an element for which the reviver returns `undefined`, and the
iterator stores the `undefined`. The two differ from the next call on, which sees the array, so
their calls are the same only if the reviver never returns `undefined` for an element.
-/

namespace Njs.Json

open Njs.Objects (Name Value)

variable {heap : Heap} {owned : Set ℕ} {o depth : ℕ} {inside : Place → Set ℕ} {t : Tree}
  {place : Place} {places : List Place} {v holder : Value} {holes : Bool} {order : VisitOrder}
  {f : PureReviver} {s s' s'' : Trace} {r r' : Value} {calls calls' : List ReviverCall}

/-! ## Calls that differ -/

/-- Neither of two lists of calls goes on as the other one. -/
def Strays (calls calls' : List ReviverCall) : Prop := ¬calls <+: calls' ∧ ¬calls' <+: calls

theorem Strays.ne (h : Strays calls calls') : calls ≠ calls' := by
  rintro rfl
  exact h.1 (List.prefix_refl calls)

theorem Strays.mono {more more' : List ReviverCall} (h : Strays calls calls')
    (hmore : calls <+: more) (hmore' : calls' <+: more') : Strays more more' := by
  have hnot : ∀ {l}, calls <+: l → calls' <+: l → False := by
    intro l hl hl'
    rcases List.prefix_or_prefix_of_prefix hl hl' with hstart | hstart
    · exact h.1 hstart
    · exact h.2 hstart
  exact ⟨fun hstart => hnot (hmore.trans hstart) hmore',
    fun hstart => hnot hmore (hmore'.trans hstart)⟩

/-- A trace goes on, and the first call that is new sees the heap of now. -/
def Trace.GoesOn (s s' : Trace) : Prop :=
  ∃ call, s.calls ++ [call] <+: s'.calls ∧ call.heap = s.heap

theorem Trace.GoesOn.keeps (h : s.GoesOn s') : s.calls <+: s'.calls := by
  obtain ⟨call, hstart, -⟩ := h
  exact (List.prefix_append _ _).trans hstart

/-- If two traces with the same calls but other heaps go on, their calls differ. -/
theorem Trace.GoesOn.strays {u u' : Trace} (h : s.GoesOn s') (h' : u.GoesOn u')
    (hcalls : s.calls = u.calls) (hheap : s.heap ≠ u.heap) : Strays s'.calls u'.calls := by
  obtain ⟨call, hstart, hcall⟩ := h
  obtain ⟨call', hstart', hcall'⟩ := h'
  have hne : call ≠ call' := by
    rintro rfl
    exact hheap (hcall.symm.trans hcall')
  rw [hcalls] at hstart
  refine Strays.mono ⟨?_, ?_⟩ hstart hstart'
  · simpa [List.prefix_append_right_inj, List.cons_prefix_cons] using hne
  · simpa [List.prefix_append_right_inj, List.cons_prefix_cons] using hne.symm

theorem call_goesOn (f : PureReviver) (v : Option Value) (s : Trace) :
    s.GoesOn (f.call holder place v s).2 :=
  ⟨_, List.prefix_refl _, rfl⟩

theorem reviveAll_goesOn {revive : Place → Trace → Option (Value × Trace)}
    (hrevive : ∀ place s r s', revive place s = some (r, s') → s.GoesOn s')
    (h : reviveAll holes revive v (place :: places) s = some s') : s.GoesOn s' := by
  induction places generalizing place s with
  | nil =>
    obtain ⟨⟨r, s₁⟩, hfirst, hrest⟩ := Option.bind_eq_some_iff.mp h
    obtain rfl := Option.some.inj hrest
    exact hrevive place s r s₁ hfirst
  | cons place' places ih =>
    obtain ⟨⟨r, s₁⟩, hfirst, hrest⟩ := Option.bind_eq_some_iff.mp h
    obtain ⟨call, hstart, hcall⟩ := hrevive place s r s₁ hfirst
    exact ⟨call, hstart.trans (ih hrest).keeps, hcall⟩

theorem reviveAll_keeps {revive : Place → Trace → Option (Value × Trace)}
    (hrevive : ∀ place s r s', revive place s = some (r, s') → s.GoesOn s')
    (h : reviveAll holes revive v places s = some s') : s.calls <+: s'.calls := by
  cases places with
  | nil =>
    obtain rfl := Option.some.inj h
    exact List.prefix_refl _
  | cons place places => exact (reviveAll_goesOn hrevive h).keeps

theorem internalize_some (h : internalize f order holes (depth + 1) holder place s = some (r, s')) :
    ∃ x s₁, (s₁ = s ∧ s.heap.get holder place = none ∨ ∃ v, s.heap.get holder place = some v ∧
      reviveAll holes (internalize f order holes depth v) v (s.heap.places order v) s = some s₁) ∧
      x = s.heap.get holder place ∧ (r, s') = f.call holder place x s₁ := by
  rw [internalize] at h
  cases hget : s.heap.get holder place with
  | none =>
    rw [hget] at h
    exact ⟨none, s, Or.inl ⟨rfl, rfl⟩, rfl, (Option.some.inj h).symm⟩
  | some v =>
    rw [hget] at h
    obtain ⟨s₁, hall, hcall⟩ := Option.map_eq_some_iff.mp h
    exact ⟨some v, s₁, Or.inr ⟨v, rfl, hall⟩, rfl, hcall.symm⟩

theorem internalize_goesOn (h : internalize f order holes depth holder place s = some (r, s')) :
    s.GoesOn s' := by
  induction depth generalizing holder place s r s' with
  | zero => cases h
  | succ depth ih =>
    obtain ⟨x, s₁, hinner, -, hcall⟩ := internalize_some h
    obtain rfl : s' = _ := congrArg Prod.snd hcall
    rcases hinner with ⟨rfl, -⟩ | ⟨v, -, hall⟩
    · exact call_goesOn f x s₁
    · cases hplaces : s.heap.places order v with
      | nil =>
        rw [hplaces] at hall
        obtain rfl := Option.some.inj hall
        exact call_goesOn f x s
      | cons place places =>
        rw [hplaces] at hall
        obtain ⟨call, hstart, hheap⟩ := reviveAll_goesOn (fun place s r s' => ih) hall
        exact ⟨call, hstart.trans (call_goesOn f x s₁).keeps, hheap⟩

/-! ## The comparison -/

/-- A call for an element that stays. -/
def ReviverCall.Kept (call : ReviverCall) : Prop := call.isElement = true → call.result ≠ .undefined

/-- An element of an array. -/
def Place.isElement : Place → Bool
  | element _ => true
  | property _ => false

/-- The two recursions have done the same for a property. The last call is that for the property,
and no element was deleted before it. -/
def SameCall (place : Place) (r r' : Value) (s s' : Trace) : Prop :=
  r = r' ∧ s = s' ∧ ∃ inner own, s.calls = inner ++ [own] ∧ (∀ call ∈ inner, call.Kept) ∧
    own.result = r ∧ own.isElement = place.isElement

/-- The two recursions have parted. -/
def Parted (s s' : Trace) : Prop := Strays s.calls s'.calls ∧ ∃ call ∈ s.calls, ¬call.Kept

/-- An element was deleted by the first recursion only, and no call has seen it yet. -/
def Parting (s s' : Trace) : Prop :=
  s.calls = s'.calls ∧ s.heap ≠ s'.heap ∧ ∃ call ∈ s.calls, ¬call.Kept

theorem Parted.mono {u u' : Trace} (h : Parted s s') (hs : s.calls <+: u.calls)
    (hs' : s'.calls <+: u'.calls) : Parted u u' := by
  obtain ⟨hstrays, call, hmem, hkept⟩ := h
  exact ⟨hstrays.mono hs hs', call, hs.subset hmem, hkept⟩

theorem Parting.goOn {u u' : Trace} (h : Parting s s') (hs : s.GoesOn u) (hs' : s'.GoesOn u') :
    Parted u u' := by
  obtain ⟨hcalls, hheap, call, hmem, hkept⟩ := h
  exact ⟨hs.strays hs' hcalls hheap, call, hs.keeps.subset hmem, hkept⟩

theorem put_eq (hr : r ≠ .undefined) (i : ℕ) :
    Storage.put true i r = Storage.put false i r := by
  funext storage
  simp [Storage.put, hr]

/-- A store is the same in both recursions, unless an element is deleted. -/
theorem store_eq (h : place.isElement = true → r ≠ .undefined) :
    heap.store true v r place = heap.store false v r place := by
  cases place with
  | element i => rw [store_element, store_element, put_eq (h rfl)]
  | property name => rfl

/-- An element that is deleted is none that is `undefined`. -/
theorem store_ne {i : ℕ} (hlive : heap.Live v (.element i)) :
    heap.store true v .undefined (.element i) ≠ heap.store false v .undefined (.element i) := by
  obtain ⟨storage, hstorage, hlt⟩ := hlive
  obtain ⟨c, hc, harray⟩ := Option.bind_eq_some_iff.mp hstorage
  have hget : ∀ holes, (heap.store holes v .undefined (.element i)).get v (.element i) =
      if holes then none else some .undefined := by
    intro holes
    rw [store_element, Heap.get, storage_eq (mapArray_container _ hc), harray]
    cases holes <;> simp [Storage.put, hlt]
  intro heq
  have h := hget true
  rw [heq, hget false] at h
  cases h

/-- The two recursions over the properties of a node. -/
theorem reviveAll_compare {revive revive' : Place → Trace → Option (Value × Trace)}
    (hgoesOn : ∀ place s r s', revive place s = some (r, s') → s.GoesOn s')
    (hgoesOn' : ∀ place s r s', revive' place s = some (r, s') → s.GoesOn s')
    (hcompare : ∀ place s t' r s' r' s'', s.heap.Live (.object o) place →
      (t.child place).isSome = true → TreeNode s.heap owned o inside t →
      Holds s.heap depth (inside place) (s.heap.get (.object o) place) t' →
      (∀ call ∈ s.calls, call.Kept) → revive place s = some (r, s') →
      revive' place s = some (r', s'') →
      s.heap.Frame (inside place) s'.heap ∧ (SameCall place r r' s' s'' ∨ Parted s' s''))
    (h : Loop s.heap depth owned o inside t places) (hnodup : places.Nodup)
    (hkept : ∀ call ∈ s.calls, call.Kept)
    (hall : reviveAll true revive (.object o) places s = some s')
    (hall' : reviveAll false revive' (.object o) places s = some s'') :
    s' = s'' ∧ (∀ call ∈ s'.calls, call.Kept) ∨ Parting s' s'' ∨ Parted s' s'' := by
  induction places generalizing s with
  | nil =>
    obtain rfl := Option.some.inj hall
    obtain rfl := Option.some.inj hall'
    exact Or.inl ⟨rfl, hkept⟩
  | cons place places ih =>
    obtain ⟨t', ht', hlive, hholds⟩ := h.left place List.mem_cons_self
    obtain ⟨⟨r, s₁⟩, hfirst, hrest⟩ := Option.bind_eq_some_iff.mp hall
    obtain ⟨⟨r', s₂⟩, hfirst', hrest'⟩ := Option.bind_eq_some_iff.mp hall'
    obtain ⟨hframe, hsame | hparted⟩ := hcompare place s t' r s₁ r' s₂ hlive
      (by rw [ht']; rfl) h.node hholds hkept hfirst hfirst'
    · obtain ⟨rfl, rfl, inner, own, hcalls, hinner, hresult, helement⟩ := hsame
      by_cases hstays : place.isElement = true → r ≠ .undefined
      · -- The property is stored in the same way.
        rw [store_eq hstays] at hrest
        refine ih (h.step hnodup hframe false r) (List.nodup_cons.mp hnodup).2 ?_ hrest hrest'
        intro call hmem
        rw [hcalls, List.mem_append, List.mem_singleton] at hmem
        rcases hmem with hmem | rfl
        · exact hinner call hmem
        · intro hcall
          rw [hresult]
          exact hstays (helement ▸ hcall)
      · -- The element is deleted, and the next call sees it.
        push Not at hstays
        obtain ⟨hplace, rfl⟩ := hstays
        obtain ⟨c, hc, -⟩ := h.node.shapes
        have hlive' := hframe.live hc (h.node.apart_inside place) hlive
        have hparting : Parting ⟨s₁.heap.store true (.object o) .undefined place, s₁.calls⟩
            ⟨s₁.heap.store false (.object o) .undefined place, s₁.calls⟩ := by
          refine ⟨rfl, ?_, own, ?_, ?_⟩
          · cases place with
            | element i => exact store_ne hlive'
            | property name => cases hplace
          · rw [hcalls]
            exact List.mem_append_right inner List.mem_cons_self
          · intro hown
            exact hown (helement.trans hplace) hresult
        cases places with
        | nil =>
          obtain rfl := Option.some.inj hrest
          obtain rfl := Option.some.inj hrest'
          exact Or.inr (Or.inl hparting)
        | cons place' places =>
          exact Or.inr (Or.inr (hparting.goOn (reviveAll_goesOn hgoesOn hrest)
            (reviveAll_goesOn hgoesOn' hrest')))
    · have hkeeps := reviveAll_keeps hgoesOn hrest
      have hkeeps' := reviveAll_keeps hgoesOn' hrest'
      exact Or.inr (Or.inr (hparted.mono hkeeps hkeeps'))

/-- The call for a property, if all that is in its value was the same. -/
theorem call_same {c : Container} {x : Option Value} (hc : heap.container (.object o) = some c)
    (hkind : c.array.isSome = place.isElement) (hapart : Apart heap owned o)
    (hframe : heap.Frame owned s.heap) (hkept : ∀ call ∈ s.calls, call.Kept) :
    SameCall place (f.call (.object o) place x s).1 (f.call (.object o) place x s).1
      (f.call (.object o) place x s).2 (f.call (.object o) place x s).2 := by
  refine ⟨rfl, rfl, s.calls, _, rfl, hkept, rfl, ?_⟩
  rw [ReviverCall.isElement, storage_eq (hframe.container_eq hapart.object hc), hkind]

theorem leaf_same {c : Container} {y : Value} (hc : s.heap.container (.object o) = some c)
    (hkind : c.array.isSome = place.isElement) (hapart : Apart s.heap owned o)
    (hkept : ∀ call ∈ s.calls, call.Kept) (hy : s.heap.get (.object o) place = some y)
    (hnone : s.heap.container y = none)
    (h : internalize f order true (depth + 1) (.object o) place s = some (r, s'))
    (h' : internalize f order false (depth + 1) (.object o) place s = some (r', s'')) :
    SameCall place r r' s' s'' := by
  rw [internalize_leaf hy (places_of_none hnone)] at h h'
  obtain ⟨rfl, rfl⟩ := Prod.mk.inj (Option.some.inj h)
  obtain ⟨rfl, rfl⟩ := Prod.mk.inj (Option.some.inj h')
  exact call_same hc hkind hapart (.refl _) hkept

/-- The parts of an array are elements, and those of an object are none. -/
theorem TreeNode.isElement_eq (h : TreeNode heap owned o inside t)
    (ht : (t.child place).isSome = true) :
    ∃ c, heap.container (.object o) = some c ∧ c.array.isSome = place.isElement := by
  obtain ⟨c, hc, hshapes⟩ := h.shapes
  refine ⟨c, hc, ?_⟩
  cases t with
  | array elements =>
    obtain ⟨-, storage, harray, -⟩ := hshapes
    obtain ⟨i, -, rfl⟩ := child_isSome_element.mp ht
    rw [harray]
    rfl
  | object members =>
    obtain ⟨name, -, rfl⟩ := child_isSome_property.mp ht
    rw [hshapes.1]
    rfl
  | _ => exact hshapes.elim

/-- The two recursions for a property of an array or object. -/
theorem internalize_compare {c : Container}
    (hc : s.heap.container (.object o) = some c) (hkind : c.array.isSome = place.isElement)
    (hapart : Apart s.heap owned o)
    (hholds : Holds s.heap depth owned (s.heap.get (.object o) place) t)
    (hkept : ∀ call ∈ s.calls, call.Kept)
    (h : internalize f order true (depth + 1) (.object o) place s = some (r, s'))
    (h' : internalize f order false (depth + 1) (.object o) place s = some (r', s'')) :
    SameCall place r r' s' s'' ∨ Parted s' s'' := by
  induction depth generalizing owned place t s r s' r' s'' o c with
  | zero =>
    obtain ⟨y, -, hy, hnone⟩ := hholds
    exact Or.inl (leaf_same hc hkind hapart hkept hy hnone h h')
  | succ depth ih =>
    rcases hholds with ⟨y, -, hy, hnone⟩ | ⟨o', inside, hx, hnode, hchildren⟩
    · exact Or.inl (leaf_same hc hkind hapart hkept hy hnone h h')
    · obtain ⟨hnodup, hloop⟩ := hnode.loop hchildren order
      have htotal := fun holes revive hrevive =>
        @reviveAll_total owned o' depth inside t _ holes s revive hrevive hloop hnodup
      obtain ⟨s₁, hall, hframe⟩ := htotal true
        (internalize f order true (depth + 1) (.object o')) fun _ _ _ =>
          internalize_total f order true
      obtain ⟨s₂, hall', -⟩ := htotal false
        (internalize f order false (depth + 1) (.object o')) fun _ _ _ =>
          internalize_total f order false
      rw [internalize_eq hx hall] at h
      rw [internalize_eq hx hall'] at h'
      obtain ⟨rfl, rfl⟩ := Prod.mk.inj (Option.some.inj h)
      obtain ⟨rfl, rfl⟩ := Prod.mk.inj (Option.some.inj h')
      have hall_compare := reviveAll_compare (fun _ _ _ _ => internalize_goesOn)
        (fun _ _ _ _ => internalize_goesOn)
        (fun place s t' r s' r' s'' hlive ht hnode hholds hkept hfirst hfirst' => by
          obtain ⟨c', hc', hkind'⟩ := hnode.isElement_eq ht
          obtain ⟨r₁, u, hsome, hframe⟩ := internalize_total f order true hholds
          obtain ⟨rfl, rfl⟩ := Prod.mk.inj (Option.some.inj (hfirst.symm.trans hsome))
          exact ⟨hframe, ih hc' hkind' (hnode.apart_inside place) hholds hkept hfirst hfirst'⟩)
        hloop hnodup hkept hall hall'
      rcases hall_compare with ⟨rfl, hkept'⟩ | hparting | hparted
      · exact Or.inl (call_same hc hkind hapart hframe hkept')
      · exact Or.inr (hparting.goOn (call_goesOn f _ s₁) (call_goesOn f _ s₂))
      · exact Or.inr (hparted.mono (call_goesOn f _ s₁).keeps (call_goesOn f _ s₂).keeps)

end Njs.Json
