import Njs.Objects.Chains

/-!
# Two lookups of properties

`njs_object_property` walks the hashes of a chain as `njs_value_property` does, but takes the
white-out of a deleted property for the property.
-/

namespace Njs.Objects

variable {env : Env} {reading : Reading} {key : PropertyKey} {o : Object}
  {chain protos : List Object} {name : Name} {prop : Property}

/-- What `njs_object_property` and `njs_value_property` return is the same value, or absence. -/
inductive SameAnswer : Except Error (Option (Option Value)) → GetResult → Prop
  | value (v : Value) : SameAnswer (.ok (some (some v))) (.ok v)
  | absent : SameAnswer (.ok none) .declined

/-- The two lookups of a key on a chain return the same if there is memory for the copies of
properties that are shared. -/
def LookupsAgree (key : PropertyKey) : List Object → Prop
  | [] => True
  | o :: protos => ∀ (env : Env) (reading : Reading), ¬env.memory.Lacks →
    SameAnswer (objectProperty reading key.name (o :: protos)) (valueProperty env o protos key).1

/-- The first object of the chain that has, or had, an own property of this name does not have
it any more. -/
def NearestDeleted (name : Name) (chain : List Object) : Prop :=
  ∃ prop, chain.findSome? (·.current name) = some prop ∧ prop.type = .whiteout

/-- An object that no operation was directed at: its properties are shared ones with values. -/
structure Object.Fresh (o : Object) : Prop where
  type : o.type = .object
  hash : o.hash = ∅
  shared : ∀ name prop, o.sharedHash.lookup name = some prop →
    prop.type = .property ∧ prop.value.isSome = true

/-- A data property has a value until it is deleted. -/
def Property.Valued (prop : Property) : Prop :=
  prop.isData = true → (prop.type = .whiteout → prop.value = none) ∧
    (prop.type ≠ .whiteout → prop.value.isSome = true)

/-- All properties of the objects are data properties, the deleted ones too. -/
def DataOnly (chain : List Object) : Prop :=
  ∀ o ∈ chain, ∀ name, ∀ prop ∈ o.current name, prop.isData = true

/-! ## Values -/

theorem completed_valued {d : Property} (h : Described d) : (completed d).Valued := by
  intro hdata
  have htype : (completed d).type = .property := (completed_type d).trans h.type
  refine ⟨fun hwhite => ?_, fun _ => ?_⟩
  · rw [htype] at hwhite
    cases hwhite
  · cases haccessor : d.isAccessor with
    | true =>
      obtain ⟨hwritable, hvalue⟩ := Property.isData_eq_false (h.kind haccessor)
      have hfalse : (completed d).isData = false := by
        simp only [completed, haccessor, if_true, Property.isData, hwritable, hvalue]
        rfl
      rw [hfalse] at hdata
      cases hdata
    | false =>
      simp only [completed, haccessor, Bool.false_eq_true, if_false]
      rfl

/-- A definition leaves a data property with a value. -/
theorem Updated.valued {prev d r : Property} (h : Updated prev d r) (hprev : prev.Valued)
    (hlive : prev.type = .property) (htype : r.type = .property) : r.Valued := by
  intro hdata
  have hne : ∀ p : Property, p.type = .property → p.type ≠ .whiteout := by
    intro p hp
    rw [hp]
    exact nofun
  refine ⟨fun hwhite => absurd hwhite (hne r htype), fun _ => ?_⟩
  cases h with
  | generic hvalue hwritable =>
    unfold Property.isData at hdata
    rw [hvalue, hwritable] at hdata
    rw [hvalue]
    exact (hprev hdata).2 (hne prev hlive)
  | data hvalue hvalue' =>
    cases hkind : prev.isData with
    | true => exact hvalue ((hprev hkind).2 (hne prev hlive))
    | false => exact hvalue' hkind
  | accessor hvalue hwritable =>
    unfold Property.isData at hdata
    rw [hvalue, hwritable] at hdata
    cases hdata

/-- Operations keep the values of data properties. -/
theorem Transition.valued {op : Op} {e e' : Option Property} (h : Transition op name e e')
    (he : ∀ prop ∈ e, prop.Valued) : ∀ prop ∈ e', prop.Valued := by
  cases h with
  | same => exact he
  | assigned key v prop hlive =>
    rintro - ⟨⟩ -
    refine ⟨fun hwhite => ?_, fun _ => rfl⟩
    rw [hlive] at hwhite
    cases hwhite
  | revived | added =>
    rintro - ⟨⟩ -
    exact ⟨nofun, fun _ => rfl⟩
  | deleted =>
    rintro - ⟨⟩ -
    exact ⟨fun _ => rfl, fun hlive => absurd rfl hlive⟩
  | created reading key desc _ d hd =>
    rintro - ⟨⟩
    exact completed_valued (described_descriptorProp hd)
  | updated reading key desc prev d hd hlive =>
    rintro - ⟨⟩
    exact (updated_withAttributes (described_descriptorProp hd) hlive).valued (he prev rfl) hlive
      ((withFields_converted_type prev d).trans hlive)

/-! ## Lookups -/

theorem Object.Fresh.current (h : o.Fresh) (hprop : o.current name = some prop) :
    prop.type = .property ∧ prop.value.isSome = true := by
  unfold Object.current at hprop
  rw [h.hash] at hprop
  exact h.shared name prop hprop

theorem Object.Fresh.simple (h : o.Fresh) : o.Simple :=
  ⟨h.type, fun _ _ hprop => Or.inl (h.current hprop).1⟩

theorem Object.Fresh.valued (h : o.Fresh) (name : Name) : ∀ prop ∈ o.current name, prop.Valued := by
  intro prop hprop _
  obtain ⟨htype, hvalue⟩ := h.current hprop
  refine ⟨fun hwhite => ?_, fun _ => hvalue⟩
  rw [htype] at hwhite
  cases hwhite

/-- `njs_object_property` takes the first entry on the chain. -/
theorem objectProperty_eq (reading : Reading) (name : Name) (chain : List Object)
    (hdata : DataOnly chain) :
    objectProperty reading name chain =
      .ok ((chain.findSome? (·.current name)).map Property.value) := by
  induction chain with
  | nil => rfl
  | cons o protos ih =>
    have hrest : DataOnly protos := fun p hp => hdata p (List.mem_cons_of_mem _ hp)
    have hread : ∀ prop, o.current name = some prop →
        (readProperty reading prop).map some = .ok (some prop.value) := by
      intro prop hprop
      unfold readProperty
      rw [if_pos (hdata o List.mem_cons_self name prop hprop)]
      rfl
    unfold objectProperty
    rw [List.findSome?_cons]
    cases hhash : o.hash.lookup name with
    | some prop =>
      have hcurrent := Object.current_of_hash hhash
      rw [hcurrent]
      exact hread prop hcurrent
    | none =>
      cases hshared : o.sharedHash.lookup name with
      | some prop =>
        have hcurrent : o.current name = some prop := by
          simp only [Object.current, hhash, hshared, Option.orElse_none]
        rw [hcurrent]
        exact hread prop hcurrent
      | none =>
        have hcurrent : o.current name = none := by
          simp only [Object.current, hhash, hshared, Option.orElse_none]
        rw [hcurrent]
        exact ih hrest

/-- What `njs_value_property` returns of a property on the chain. -/
def answer : Option Property → GetResult
  | some prop => .ok (prop.value.getD .undefined)
  | none => .declined

/-- `njs_value_property` takes the first property on the chain that is not deleted. -/
theorem valueProperty_eq (hsimple : ∀ p ∈ o :: protos, p.Simple) (hdata : DataOnly (o :: protos))
    (hmemory : ¬env.memory.Lacks) :
    (valueProperty env o protos key).1 =
      answer ((o :: protos).findSome? (·.find key.name)) := by
  have hfinds : ∀ {p prop}, p ∈ o :: protos → p.find key.name = some prop →
      prop.isData = true := by
    intro p prop hp hfind
    rw [p.find_eq] at hfind
    cases hcurrent : p.current key.name with
    | none =>
      rw [hcurrent] at hfind
      cases hfind
    | some prop' =>
      rw [hcurrent] at hfind
      simp only at hfind
      split_ifs at hfind
      obtain rfl := Option.some.inj hfind
      exact hdata p hp _ _ hcurrent
  obtain ⟨hqueried, -⟩ := queried_objectPropertyQuery (hsimple o List.mem_cons_self)
    (fun p hp => hsimple p (List.mem_cons_of_mem _ hp)) env.memory .get key false
  unfold valueProperty
  generalize objectPropertyQuery env.memory .get key false o protos = q at hqueried
  obtain ⟨result, white, object, protos'⟩ := q
  have hfind := o.find_eq key.name
  cases hqueried with
  | own prop o' hcurrent htype halike hentry =>
    rw [hcurrent] at hfind
    simp only [htype, reduceCtorEq, if_false] at hfind
    rw [List.findSome?_cons, hfind]
    simp only [htype, if_pos (hfinds List.mem_cons_self hfind), answer]
  | error e o' halike hlacks => exact absurd hlacks hmemory
  | beyond result white hnone hwhite hown hwalks =>
    have hskip : object.find key.name = none := by
      rw [hfind]
      cases white with
      | false => rw [hnone rfl]
      | true =>
        obtain ⟨prop, hcurrent, htype⟩ := hwhite rfl
        rw [hcurrent]
        exact if_pos htype
    rw [List.findSome?_cons, hskip]
    cases hwalks rfl with
    | found prop hprotos htype =>
      obtain ⟨p, hp, hpfind⟩ := List.exists_of_findSome?_eq_some hprotos
      simp only [hprotos, htype, if_pos (hfinds (List.mem_cons_of_mem _ hp) hpfind), answer]
    | declined hprotos =>
      simp only [hprotos, answer]
    | error e hlacks => exact absurd hlacks hmemory

/-- If the first entry on the chain is no white-out, it is the first property. -/
theorem findSome?_find (h : ¬NearestDeleted name chain) :
    chain.findSome? (·.find name) = chain.findSome? (·.current name) := by
  induction chain with
  | nil => rfl
  | cons o protos ih =>
    have hfind := o.find_eq name
    rw [List.findSome?_cons, List.findSome?_cons]
    cases hcurrent : o.current name with
    | some prop =>
      have hlive : prop.type ≠ .whiteout := by
        intro hwhite
        exact h ⟨prop, by rw [List.findSome?_cons, hcurrent], hwhite⟩
      rw [hfind, hcurrent]
      simp only [if_neg hlive]
    | none =>
      rw [hfind, hcurrent]
      refine ih fun hdeleted => h ?_
      obtain ⟨prop, hprop, hwhite⟩ := hdeleted
      exact ⟨prop, by rw [List.findSome?_cons, hcurrent]; exact hprop, hwhite⟩

/-- On a chain that operations made, the two lookups of a key return the same if and only if
no white-out comes before the first property with this name. -/
theorem lookups_agree_iff (chain : List Object) (steps : List ChainStep)
    (hfresh : ∀ o ∈ chain, o.Fresh) (hdata : DataOnly (runSteps chain steps))
    (key : PropertyKey) :
    LookupsAgree key (runSteps chain steps) ↔
      ¬NearestDeleted key.name (runSteps chain steps) := by
  obtain ⟨hsimple, hvalued⟩ := runSteps_entries (P := Property.Valued)
    (fun op name e e' h => h.valued) steps (fun o ho => (hfresh o ho).simple)
    (fun o ho => (hfresh o ho).valued)
  generalize runSteps chain steps = chain' at hdata hsimple hvalued
  cases chain' with
  | nil =>
    refine ⟨fun _ => ?_, fun _ => trivial⟩
    rintro ⟨prop, hprop, -⟩
    cases hprop
  | cons o protos =>
    have hobject := fun reading => objectProperty_eq reading key.name (o :: protos) hdata
    constructor
    · rintro hagree ⟨prop, hprop, hwhite⟩
      have hmemory : ¬ample.memory.Lacks := by
        rintro (h | h | h) <;> cases h
      have hanswer := hagree ample ⟨fun _ => .ok .undefined, false⟩ hmemory
      obtain ⟨p, hp, hcurrent⟩ := List.exists_of_findSome?_eq_some hprop
      have hvalue := ((hvalued p hp _ _ hcurrent) (hdata p hp _ _ hcurrent)).1 hwhite
      rw [hobject, hprop, Option.map_some, hvalue] at hanswer
      cases hanswer
    · intro hnear env reading hmemory
      rw [hobject, valueProperty_eq hsimple hdata hmemory, findSome?_find hnear]
      cases hprop : (o :: protos).findSome? (·.current key.name) with
      | none => exact .absent
      | some prop =>
        obtain ⟨p, hp, hcurrent⟩ := List.exists_of_findSome?_eq_some hprop
        have hlive : prop.type ≠ .whiteout := fun hwhite => hnear ⟨prop, hprop, hwhite⟩
        have hsome := ((hvalued p hp _ _ hcurrent) (hdata p hp _ _ hcurrent)).2 hlive
        obtain ⟨v, hv⟩ := Option.isSome_iff_exists.mp hsome
        simp only [Option.map_some, answer, hv, Option.getD_some]
        exact .value v

theorem fresh_plain : (plain .object true fun _ => nofun).Fresh where
  type := rfl
  hash := rfl
  shared _ _ h := nomatch h

/-- On `{}` the lookups agree. -/
theorem lookups_agree_plain :
    LookupsAgree ⟨[97], none⟩ (runSteps [plain .object true fun _ => nofun] []) ↔
      ¬NearestDeleted [97] (runSteps [plain .object true fun _ => nofun] []) := by
  refine lookups_agree_iff [plain .object true fun _ => nofun] [] ?_ ?_ ⟨[97], none⟩
  · rintro o (_ | ⟨_, ⟨⟩⟩)
    exact fresh_plain
  · rintro o (_ | ⟨_, ⟨⟩⟩) name prop hprop
    cases hprop

/-- `o.a = 1; delete o.a` leaves an object whose `a` the internal lookup finds. -/
theorem not_lookups_agree :
    ¬∀ (chain : List Object) (steps : List ChainStep), (∀ o ∈ chain, o.Fresh) →
      DataOnly (runSteps chain steps) → ∀ key, LookupsAgree key (runSteps chain steps) := by
  intro hall
  have hchain : runSteps [plain .object true fun _ => nofun]
      [⟨ample, 0, .set ⟨[97], none⟩ (.number (.finite 1))⟩, ⟨ample, 0, .delete ⟨[97], none⟩⟩] =
      [((plain .object true fun _ => nofun).setProperty [97]
        (objectPropAlloc (some (.number (.finite 1))) .yes)).setProperty [97]
          (deleted (objectPropAlloc (some (.number (.finite 1))) .yes))] := rfl
  have hfresh : ∀ o ∈ [plain .object true fun _ => nofun], o.Fresh := by
    rintro o (_ | ⟨_, ⟨⟩⟩)
    exact fresh_plain
  have hdata : DataOnly (runSteps [plain .object true fun _ => nofun]
      [⟨ample, 0, .set ⟨[97], none⟩ (.number (.finite 1))⟩,
        ⟨ample, 0, .delete ⟨[97], none⟩⟩]) := by
    rw [hchain]
    rintro o (_ | ⟨_, ⟨⟩⟩) name prop hprop
    by_cases hname : name = [97]
    · rw [hname, Object.setProperty_current_self] at hprop
      rw [← Option.some.inj hprop]
      rfl
    · rw [Object.setProperty_current_of_ne _ _ hname, Object.setProperty_current_of_ne _ _ hname]
        at hprop
      cases hprop
  refine (lookups_agree_iff _ _ hfresh hdata ⟨[97], none⟩).mp (hall _ _ hfresh hdata _) ?_
  rw [hchain]
  exact ⟨_, by rw [List.findSome?_cons, Object.setProperty_current_self], rfl⟩

end Njs.Objects
