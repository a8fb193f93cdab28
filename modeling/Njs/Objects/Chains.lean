import Njs.Objects.Frozen
import Mathlib.Data.List.Forall2

/-!
# Runs on prototype chains

What assignments, deletions and definitions do to the objects of a chain whose properties have
values or functions of their own and no handlers. A lookup may copy a property that is shared;
that is no change here.
-/

namespace Njs.Objects

variable {env : Env} {memory : Memory} {query : Query} {key : PropertyKey} {o o' o'' : Object}
  {protos : List Object} {setval : Value} {name : Name} {prop : Property}

/-! ## Entries -/

/-- What the hashes have for a name: a property, or the white-out of one. -/
def Object.current (o : Object) (name : Name) : Option Property :=
  (o.hash.lookup name).orElse fun _ => o.sharedHash.lookup name

/-- The object has no elements, characters or handlers. -/
structure Object.Simple (o : Object) : Prop where
  type : o.type = .object
  entry : ∀ name prop, o.current name = some prop → prop.type = .property ∨ prop.type = .whiteout

/-- The objects have the same entries. -/
structure Object.Alike (o o' : Object) : Prop where
  type : o'.type = o.type
  current : ∀ name, o'.current name = o.current name

theorem Object.Alike.refl (o : Object) : o.Alike o := ⟨rfl, fun _ => rfl⟩

theorem Object.find_eq (o : Object) (name : Name) :
    o.find name = match o.current name with
      | some prop => if prop.type = .whiteout then none else some prop
      | none => none := by
  unfold find current
  cases hhash : o.hash.lookup name with
  | some prop => rfl
  | none =>
    cases hshared : o.sharedHash.lookup name with
    | none => rfl
    | some prop =>
      have hlive := o.shared_live name prop hshared
      simp only [Option.orElse_none, if_neg hlive]

theorem Object.setProperty_current_self (o : Object) (name : Name) (prop : Property) :
    (o.setProperty name prop).current name = some prop := by
  unfold current setProperty
  rw [AList.lookup_insert]
  rfl

theorem Object.setProperty_current_of_ne (o : Object) {other : Name} (prop : Property)
    (h : other ≠ name) : (o.setProperty name prop).current other = o.current other := by
  unfold current setProperty
  simp only [AList.lookup_insert_ne h]

/-- A copy of what is shared leaves the entries as they are. -/
theorem Object.setProperty_alike (h : o.current name = some prop) :
    o.Alike (o.setProperty name prop) := by
  refine ⟨rfl, fun other => ?_⟩
  by_cases hname : other = name
  · rw [hname, Object.setProperty_current_self, h]
  · exact o.setProperty_current_of_ne prop hname

theorem Object.current_of_hash (h : o.hash.lookup name = some prop) :
    o.current name = some prop := by
  unfold current
  rw [h]
  rfl

/-- A white-out is in the hash. -/
theorem Object.hash_of_whiteout (h : o.current name = some prop) (hwhite : prop.type = .whiteout) :
    o.hash.lookup name = some prop := by
  unfold current at h
  cases hhash : o.hash.lookup name with
  | some entry =>
    rw [hhash] at h
    exact h
  | none =>
    rw [hhash] at h
    exact absurd hwhite (o.shared_live name prop h)

/-! ## Lookups -/

/-- There is no memory for a copy of a property. -/
def Memory.Lacks (memory : Memory) : Prop :=
  memory.property = false ∨ memory.insert = false ∨ memory.function = false

/-- What a lookup in one object finds. -/
inductive Finds (memory : Memory) (o : Object) (name : Name) : Local → Object → Prop
  | found (prop : Property) (o' : Object) (h : o.current name = some prop)
    (htype : prop.type = .property) (halike : o.Alike o')
    (hentry : o'.hash.lookup name = some prop) : Finds memory o name (.found .entry prop) o'
  | whiteout (prop : Property) (h : o.current name = some prop) (htype : prop.type = .whiteout) :
    Finds memory o name .whiteout o
  | absent (h : o.current name = none) : Finds memory o name .absent o
  | error (e : Error) (o' : Object) (halike : o.Alike o') (hlacks : memory.Lacks) :
    Finds memory o name (.error e) o'

theorem finds_ownQuery (h : o.Simple) (memory : Memory) (query : Query) (key : PropertyKey) :
    Finds memory o key.name (ownQuery memory query key o).1 (ownQuery memory query key o).2 := by
  have hquery : ownQuery memory query key o = hashQuery memory key.name o := by
    simp only [ownQuery, h.type]
  rw [hquery]
  cases hhash : o.hash.lookup key.name with
  | some prop =>
    have hcurrent := Object.current_of_hash hhash
    by_cases hwhite : prop.type = .whiteout
    · simp only [hashQuery, hhash, hwhite, ne_eq, not_true_eq_false, if_false]
      exact .whiteout prop hcurrent hwhite
    · simp only [hashQuery, hhash, ne_eq, hwhite, not_false_eq_true, if_true]
      exact .found prop o hcurrent ((h.entry _ _ hcurrent).resolve_right hwhite) (.refl o) hhash
  | none =>
    cases hshared : o.sharedHash.lookup key.name with
    | none =>
      simp only [hashQuery, hhash, hshared]
      refine .absent ?_
      simp only [Object.current, hhash, hshared, Option.orElse_none]
    | some prop =>
      have hcurrent : o.current key.name = some prop := by
        simp only [Object.current, hhash, hshared, Option.orElse_none]
      have htype : prop.type = .property :=
        (h.entry _ _ hcurrent).resolve_right (o.shared_live _ _ hshared)
      have hpost : prop.postponed = false := by
        simp only [Property.postponed, htype]
      have halike := Object.setProperty_alike hcurrent
      simp only [hashQuery, hhash, hshared, hpost, Bool.false_eq_true, if_false, propPrivateCopy]
      split_ifs with hproperty hinsert hfunction
      · exact .error _ o (.refl o) (Or.inl (by simpa using hproperty))
      · exact .error _ o (.refl o) (Or.inr (Or.inl (by simpa using hinsert)))
      · refine .error _ _ halike (Or.inr (Or.inr ?_))
        simp only [Bool.and_eq_true, Bool.not_eq_true'] at hfunction
        exact hfunction.2
      · exact .found prop _ hcurrent htype halike (AList.lookup_insert _)

/-- What the walk along the prototypes finds. -/
inductive Walks (memory : Memory) (protos : List Object) (name : Name) : Lookup → Prop
  | found (prop : Property) (h : protos.findSome? (·.find name) = some prop)
    (htype : prop.type = .property) : Walks memory protos name (.found false .entry prop)
  | declined (h : protos.findSome? (·.find name) = none) : Walks memory protos name .declined
  | error (e : Error) (hlacks : memory.Lacks) : Walks memory protos name (.error e)

theorem walks_prototypeQuery (hprotos : ∀ p ∈ protos, p.Simple) (memory : Memory) (query : Query)
    (key : PropertyKey) :
    Walks memory protos key.name (prototypeQuery memory query key protos).1 ∧
      List.Forall₂ Object.Alike protos (prototypeQuery memory query key protos).2 := by
  induction protos with
  | nil => exact ⟨.declined rfl, .nil⟩
  | cons o protos ih =>
    have hrest := List.forall₂_same.mpr fun (p : Object) (_ : p ∈ protos) => Object.Alike.refl p
    obtain ⟨hwalk, halikes⟩ := ih fun p hp => hprotos p (List.mem_cons_of_mem _ hp)
    have hfinds := finds_ownQuery (hprotos o List.mem_cons_self) memory query key
    have hfind := o.find_eq key.name
    have hskip : o.find key.name = none → ∀ result, Walks memory protos key.name result →
        Walks memory (o :: protos) key.name result := by
      intro hnone result hresult
      cases hresult with
      | found prop h htype => exact .found prop (by rw [List.findSome?_cons, hnone]; exact h) htype
      | declined h => exact .declined (by rw [List.findSome?_cons, hnone]; exact h)
      | error e hlacks => exact .error e hlacks
    cases hown : ownQuery memory query key o with
    | mk found o' =>
      rw [hown] at hfinds
      cases hfinds with
      | found prop _ hcurrent htype halike hentry =>
        simp only [prototypeQuery, hown]
        rw [hcurrent] at hfind
        simp only [htype, reduceCtorEq, if_false] at hfind
        exact ⟨.found prop (by rw [List.findSome?_cons, hfind]) htype, .cons halike hrest⟩
      | whiteout prop hcurrent htype =>
        simp only [prototypeQuery, hown]
        rw [hcurrent] at hfind
        simp only [htype, if_true] at hfind
        exact ⟨hskip hfind _ hwalk, .cons (.refl _) halikes⟩
      | absent hcurrent =>
        simp only [prototypeQuery, hown]
        rw [hcurrent] at hfind
        exact ⟨hskip hfind _ hwalk, .cons (.refl _) halikes⟩
      | error e _ halike hlacks =>
        simp only [prototypeQuery, hown]
        exact ⟨.error e hlacks, .cons halike hrest⟩

/-- What a lookup finds, and what it leaves of the object. -/
inductive Queried (memory : Memory) (own : Bool) (o : Object) (protos : List Object)
    (name : Name) : Lookup → Bool → Object → Prop
  | own (prop : Property) (o' : Object) (h : o.current name = some prop)
    (htype : prop.type = .property) (halike : o.Alike o')
    (hentry : o'.hash.lookup name = some prop) :
    Queried memory own o protos name (.found true .entry prop) false o'
  | error (e : Error) (o' : Object) (halike : o.Alike o') (hlacks : memory.Lacks) :
    Queried memory own o protos name (.error e) false o'
  /-- There is no own property, but perhaps a white-out, and a property of a prototype. -/
  | beyond (result : Lookup) (white : Bool) (hnone : white = false → o.current name = none)
    (hwhite : white = true → ∃ prop, o.current name = some prop ∧ prop.type = .whiteout)
    (hown : own = true → result = .declined)
    (hwalks : own = false → Walks memory protos name result) :
    Queried memory own o protos name result white o

theorem queried_objectPropertyQuery (h : o.Simple) (hprotos : ∀ p ∈ protos, p.Simple)
    (memory : Memory) (query : Query) (key : PropertyKey) (own : Bool) :
    Queried memory own o protos key.name (objectPropertyQuery memory query key own o protos).result
        (objectPropertyQuery memory query key own o protos).ownWhiteout
        (objectPropertyQuery memory query key own o protos).object ∧
      List.Forall₂ Object.Alike protos
        (objectPropertyQuery memory query key own o protos).protos := by
  have hrest := List.forall₂_same.mpr fun (p : Object) (_ : p ∈ protos) => Object.Alike.refl p
  obtain ⟨hwalk, halikes⟩ := walks_prototypeQuery hprotos memory query key
  have hfinds := finds_ownQuery h memory query key
  cases hown : ownQuery memory query key o with
  | mk found o' =>
    rw [hown] at hfinds
    cases hfinds with
    | found prop _ hcurrent htype halike hentry =>
      simp only [objectPropertyQuery, hown]
      exact ⟨.own prop o' hcurrent htype halike hentry, hrest⟩
    | error e _ halike hlacks =>
      simp only [objectPropertyQuery, hown]
      exact ⟨.error e o' halike hlacks, hrest⟩
    | whiteout prop hcurrent htype =>
      cases own with
      | true =>
        simp only [objectPropertyQuery, hown, if_true]
        exact ⟨.beyond _ true (by rintro ⟨⟩) (fun _ => ⟨prop, hcurrent, htype⟩) (fun _ => rfl)
          (by rintro ⟨⟩), hrest⟩
      | false =>
        simp only [objectPropertyQuery, hown, Bool.false_eq_true, if_false]
        exact ⟨.beyond _ true (by rintro ⟨⟩) (fun _ => ⟨prop, hcurrent, htype⟩) (by rintro ⟨⟩)
          fun _ => hwalk, halikes⟩
    | absent hcurrent =>
      cases own with
      | true =>
        simp only [objectPropertyQuery, hown, if_true]
        exact ⟨.beyond _ false (fun _ => hcurrent) (by rintro ⟨⟩) (fun _ => rfl) (by rintro ⟨⟩),
          hrest⟩
      | false =>
        simp only [objectPropertyQuery, hown, Bool.false_eq_true, if_false]
        exact ⟨.beyond _ false (fun _ => hcurrent) (by rintro ⟨⟩) (by rintro ⟨⟩) fun _ => hwalk,
          halikes⟩

/-! ## Operations -/

/-- What an operation makes of an entry of the object that it is directed at. -/
inductive Transition : Op → Name → Option Property → Option Property → Prop
  | same (op : Op) (name : Name) (e : Option Property) : Transition op name e e
  | assigned (key : PropertyKey) (v : Value) (prop : Property) (hlive : prop.type = .property)
    (hdata : prop.isData = true) :
    Transition (.set key v) key.name (some prop) (some { prop with value := some v })
  | revived (key : PropertyKey) (v : Value) (prop : Property) (hwhite : prop.type = .whiteout) :
    Transition (.set key v) key.name (some prop) (some (revived prop v))
  | added (key : PropertyKey) (v : Value) :
    Transition (.set key v) key.name none (some (objectPropAlloc (some v) .yes))
  | deleted (key : PropertyKey) (prop : Property) (hlive : prop.type = .property) :
    Transition (.delete key) key.name (some prop) (some (deleted prop))
  | created (reading : Reading) (key : PropertyKey) (desc : List Object) (e : Option Property)
    (d : Property) (hd : descriptorProp reading desc (objectPropAlloc none .unset) = .ok d)
    (hdead : ∀ prop ∈ e, prop.type = .whiteout) :
    Transition (.define reading (.ok key) (some desc)) key.name e (some (completed d))
  | updated (reading : Reading) (key : PropertyKey) (desc : List Object) (prev d : Property)
    (hd : descriptorProp reading desc (objectPropAlloc none .unset) = .ok d)
    (hlive : prev.type = .property) :
    Transition (.define reading (.ok key) (some desc)) key.name (some prev)
      (some (withAttributes (withFields (converted prev d) d) d))

/-- What an operation makes of an object. -/
structure Effect (op : Op) (o o' : Object) : Prop where
  type : o'.type = o.type
  transition : ∀ name, Transition op name (o.current name) (o'.current name)

theorem Effect.refl (op : Op) (o : Object) : Effect op o o := ⟨rfl, fun _ => .same _ _ _⟩

theorem Object.Alike.effect (h : o.Alike o') (op : Op) : Effect op o o' :=
  ⟨h.type, fun name => h.current name ▸ .same _ _ _⟩

/-- The entry of one name is written. -/
theorem Effect.write {op : Op} (halike : o.Alike o')
    (h : Transition op name (o.current name) (some prop)) :
    Effect op o (o'.setProperty name prop) := by
  refine ⟨halike.type, fun other => ?_⟩
  by_cases hother : other = name
  · subst hother
    rw [Object.setProperty_current_self]
    exact h
  · rw [o'.setProperty_current_of_ne prop hother, halike.current]
    exact .same _ _ _

theorem addProperty_effect {q : QueryResult} (hobject : q.object = o)
    (hnone : q.ownWhiteout = false → o.current key.name = none)
    (hwhite : q.ownWhiteout = true → ∃ prop, o.current key.name = some prop ∧
      prop.type = .whiteout) :
    Effect (.set key setval) o (addProperty env key setval q).2.1 := by
  unfold addProperty
  rw [hobject]
  cases hq : q.ownWhiteout with
  | true =>
    obtain ⟨prop, hcurrent, htype⟩ := hwhite hq
    rw [Object.hash_of_whiteout hcurrent htype]
    refine .write (.refl o) ?_
    rw [hcurrent]
    exact .revived key setval prop htype
  | false =>
    have hcurrent := hnone hq
    simp only
    split_ifs
    · exact .refl _ o
    · exact .refl _ o
    · exact .refl _ o
    · refine .write (.refl o) ?_
      rw [hcurrent]
      exact .added key setval

/-- An assignment. -/
theorem valuePropertySet_effect (h : o.Simple) (hprotos : ∀ p ∈ protos, p.Simple) :
    Effect (.set key setval) o (valuePropertySet env o protos key setval).2.1 ∧
      List.Forall₂ Object.Alike protos (valuePropertySet env o protos key setval).2.2 := by
  obtain ⟨hqueried, halikes⟩ := queried_objectPropertyQuery h hprotos env.memory .set key false
  unfold valuePropertySet
  generalize objectPropertyQuery env.memory .set key false o protos = q at hqueried halikes
  obtain ⟨result, white, object, protos'⟩ := q
  cases hqueried with
  | own prop o' hcurrent htype halike hentry =>
    simp only
    split_ifs with hdata hwritable
    · simp only [assignProperty, htype, storeProperty, if_true]
      refine ⟨.write halike ?_, halikes⟩
      rw [hcurrent]
      simpa only [htype] using Transition.assigned key setval prop htype hdata
    · exact ⟨halike.effect _, halikes⟩
    · split <;> exact ⟨halike.effect _, halikes⟩
  | error e o' halike hlacks => exact ⟨halike.effect _, halikes⟩
  | beyond result white hnone hwhite hown hwalks =>
    have hadd : Effect (.set key setval) object
          (addProperty env key setval ⟨result, white, object, protos'⟩).2.1 ∧
        List.Forall₂ Object.Alike protos
          (addProperty env key setval ⟨result, white, object, protos'⟩).2.2 := by
      refine ⟨addProperty_effect rfl hnone hwhite, ?_⟩
      rw [addProperty_protos]
      exact halikes
    cases hwalks rfl with
    | found prop hfind htype =>
      simp only
      split_ifs with hdata hwritable
      · simp only [assignProperty, htype, storeProperty, Bool.false_eq_true, if_false]
        exact hadd
      · exact ⟨.refl _ _, halikes⟩
      · split <;> exact ⟨.refl _ _, halikes⟩
    | declined => exact hadd
    | error e => exact ⟨.refl _ _, halikes⟩

/-- A deletion. -/
theorem valuePropertyDelete_effect (h : o.Simple) (hprotos : ∀ p ∈ protos, p.Simple) :
    Effect (.delete key) o (valuePropertyDelete env o protos key).2 := by
  obtain ⟨hqueried, -⟩ := queried_objectPropertyQuery h hprotos env.memory .delete key true
  unfold valuePropertyDelete
  generalize objectPropertyQuery env.memory .delete key true o protos = q at hqueried
  obtain ⟨result, white, object, protos'⟩ := q
  cases hqueried with
  | own prop o' hcurrent htype halike hentry =>
    simp only [htype]
    split_ifs
    · exact halike.effect _
    · refine .write halike ?_
      rw [hcurrent]
      exact .deleted key prop htype
  | error e o' halike hlacks => exact halike.effect _
  | beyond result white hnone hwhite hown hwalks =>
    obtain rfl := hown rfl
    exact .refl _ _

theorem Object.setProperty_setProperty (o : Object) (name : Name) (prop prop' : Property) :
    (o.setProperty name prop).setProperty name prop' = o.setProperty name prop' := by
  unfold setProperty
  simp only [AList.insert_insert]

/-- The fields of a property, as the definition leaves them, come with its type. -/
theorem withFields_converted_type (prev d : Property) :
    (withFields (converted prev d) d).type = prev.type := by
  unfold withFields converted
  simp only
  split_ifs <;> rfl

theorem updateProperty_effect {reading : Reading} {desc chain : List Object} {d : Property}
    (hd : descriptorProp reading desc (objectPropAlloc none .unset) = .ok d)
    (hcurrent : o.current key.name = some prop) (htype : prop.type = .property)
    (halike : o.Alike o') (hchain : List.Forall₂ Object.Alike chain protos) :
    Effect (.define reading (.ok key) (some desc)) o
        (updateProperty env o' protos key .entry prop d).2.1 ∧
      List.Forall₂ Object.Alike chain (updateProperty env o' protos key .entry prop d).2.2 := by
  simp only [updateProperty, htype, reduceCtorEq, if_false]
  split_ifs with hattributes hfields
  · exact ⟨halike.effect _, hchain⟩
  · exact ⟨halike.effect _, hchain⟩
  · have htype' := (withFields_converted_type prop d).trans htype
    simp only [applyFields, htype', Object.writeProperty, Object.setProperty_setProperty]
    refine ⟨.write halike ?_, hchain⟩
    rw [hcurrent]
    exact .updated reading key desc prop d hd htype

theorem newProperty_effect {reading : Reading} {desc chain : List Object} {d : Property}
    {white : Bool} (hd : descriptorProp reading desc (objectPropAlloc none .unset) = .ok d)
    (hdead : ∀ prop ∈ o.current key.name, prop.type = .whiteout)
    (hchain : List.Forall₂ Object.Alike chain protos) :
    Effect (.define reading (.ok key) (some desc)) o
        (newProperty env o protos key white d).2.1 ∧
      List.Forall₂ Object.Alike chain (newProperty env o protos key white d).2.2 := by
  unfold newProperty
  split_ifs
  · exact ⟨.write (.refl o) (.created reading key desc _ d hd hdead), hchain⟩
  · exact ⟨.refl _ o, hchain⟩
  · exact ⟨.write (.refl o) (.created reading key desc _ d hd hdead), hchain⟩

/-- A definition. -/
theorem objectPropDefine_effect (h : o.Simple) (hprotos : ∀ p ∈ protos, p.Simple)
    (reading : Reading) (key : PropertyKey) (desc : List Object) :
    Effect (.define reading (.ok key) (some desc)) o
        (objectPropDefine env reading o protos key (.descriptor desc)).2.1 ∧
      List.Forall₂ Object.Alike protos
        (objectPropDefine env reading o protos key (.descriptor desc)).2.2 := by
  obtain ⟨hqueried, halikes⟩ := queried_objectPropertyQuery h hprotos env.memory .set key true
  unfold objectPropDefine
  generalize objectPropertyQuery env.memory .set key true o protos = q at hqueried halikes
  obtain ⟨result, white, object, protos'⟩ := q
  cases hqueried with
  | own prop o' hcurrent htype halike hentry =>
    simp only
    split_ifs
    · exact ⟨halike.effect _, halikes⟩
    · cases hd : definedProperty reading (.descriptor desc) with
      | error e => exact ⟨halike.effect _, halikes⟩
      | ok d => exact updateProperty_effect hd hcurrent htype halike halikes
  | error e o' halike hlacks => exact ⟨halike.effect _, halikes⟩
  | beyond result white hnone hwhite hown hwalks =>
    obtain rfl := hown rfl
    have hdead : ∀ prop ∈ object.current key.name, prop.type = .whiteout := by
      intro prop hprop
      cases white with
      | false =>
        rw [hnone rfl] at hprop
        cases hprop
      | true =>
        obtain ⟨prop', hcurrent, htype⟩ := hwhite rfl
        rw [hcurrent] at hprop
        exact Option.some.inj hprop ▸ htype
    simp only
    split_ifs
    · exact ⟨.refl _ _, halikes⟩
    · cases hd : definedProperty reading (.descriptor desc) with
      | error e => exact ⟨.refl _ _, halikes⟩
      | ok d => exact newProperty_effect hd hdead halikes

theorem objectDefineProperty_effect (h : o.Simple) (hprotos : ∀ p ∈ protos, p.Simple)
    (reading : Reading) (name : Except Error PropertyKey) (desc : Option (List Object)) :
    Effect (.define reading name desc) o
        (objectDefineProperty env reading o protos name desc).2.1 ∧
      List.Forall₂ Object.Alike protos
        (objectDefineProperty env reading o protos name desc).2.2 := by
  have hsame : Effect (.define reading name desc) o o ∧ List.Forall₂ Object.Alike protos protos :=
    ⟨.refl _ o, List.forall₂_same.mpr fun p _ => .refl p⟩
  unfold objectDefineProperty
  split_ifs
  · exact hsame
  · cases desc with
    | none => exact hsame
    | some desc =>
      cases name with
      | error e => exact hsame
      | ok key => exact objectPropDefine_effect h hprotos reading key desc

/-! ## Runs -/

/-- An operation on an object, with the prototypes afterwards. -/
def Op.perform (env : Env) (op : Op) (o : Object) (protos : List Object) : Object × List Object :=
  match op with
  | .set key setval => (valuePropertySet env o protos key setval).2
  | .delete key => ((valuePropertyDelete env o protos key).2, protos)
  | .define reading name desc => (objectDefineProperty env reading o protos name desc).2

/-- An operation on an object of a chain, which has the rest of the chain as prototypes. -/
def Op.performAt (env : Env) (op : Op) : ℕ → List Object → List Object
  | 0, o :: protos =>
    let (o, protos) := op.perform env o protos
    o :: protos
  | level + 1, o :: protos => o :: op.performAt env level protos
  | _, [] => []

/-- An operation in a run, with the object of the chain that it is directed at. -/
structure ChainStep where
  env : Env
  level : ℕ
  op : Op

/-- The chain after a step. A step that throws is one of the run. -/
def ChainStep.apply (step : ChainStep) (chain : List Object) : List Object :=
  step.op.performAt step.env step.level chain

/-- The chain after the steps of a run. -/
def runSteps (chain : List Object) (steps : List ChainStep) : List Object :=
  steps.foldl (fun chain step => step.apply chain) chain

theorem Op.perform_effect (op : Op) (h : o.Simple) (hprotos : ∀ p ∈ protos, p.Simple) :
    Effect op o (op.perform env o protos).1 ∧
      List.Forall₂ Object.Alike protos (op.perform env o protos).2 := by
  cases op with
  | set key setval => exact valuePropertySet_effect h hprotos
  | delete key =>
    exact ⟨valuePropertyDelete_effect h hprotos, List.forall₂_same.mpr fun p _ => .refl p⟩
  | define reading name desc => exact objectDefineProperty_effect h hprotos reading name desc

/-- What a step makes of the objects of a chain. -/
theorem ChainStep.apply_effect (step : ChainStep) {chain : List Object}
    (h : ∀ o ∈ chain, o.Simple) : List.Forall₂ (Effect step.op) chain (step.apply chain) := by
  obtain ⟨env, level, op⟩ := step
  unfold ChainStep.apply
  induction chain generalizing level with
  | nil => cases level <;> exact .nil
  | cons o protos ih =>
    have hprotos : ∀ p ∈ protos, p.Simple := fun p hp => h p (List.mem_cons_of_mem _ hp)
    cases level with
    | zero =>
      obtain ⟨heffect, halikes⟩ := op.perform_effect (h o List.mem_cons_self) hprotos
      exact .cons heffect (halikes.imp fun _ _ halike => halike.effect op)
    | succ level =>
      exact .cons (.refl op o) (ih hprotos level)

/-! ## Descriptors -/

theorem ok_of_bind {ε α β : Type} {x : Except ε α} {f : α → Except ε β} {b : β}
    (h : (x >>= f) = .ok b) : ∃ a, x = .ok a ∧ f a = .ok b := by
  cases x with
  | error e => cases h
  | ok a => exact ⟨a, rfl, h⟩

theorem accessorField_ok {message : String} {field : Option (Option Value)} {v : Option Value}
    (h : accessorField message field = .ok v) :
    (field = none ∧ v = none) ∨ field.isSome = true ∧ isFunctionOrUndefined v = true := by
  unfold accessorField at h
  split at h
  · exact Or.inl ⟨rfl, (Except.ok.inj h).symm⟩
  · split_ifs at h with hfunction
    obtain rfl := Except.ok.inj h
    exact Or.inr ⟨rfl, hfunction⟩

/-- The property of a descriptor has functions, or a value and an attribute, or neither. -/
structure Described (d : Property) : Prop where
  type : d.type = .property
  getter : d.getter = none ∨ isFunctionOrUndefined d.getter = true
  setter : d.setter = none ∨ isFunctionOrUndefined d.setter = true
  kind : d.isAccessor = true → d.isData = false

theorem described_descriptorProp {reading : Reading} {desc : List Object} {d : Property}
    (h : descriptorProp reading desc (objectPropAlloc none .unset) = .ok d) : Described d := by
  unfold descriptorProp at h
  obtain ⟨get, -, h⟩ := ok_of_bind h
  obtain ⟨getter, hgetter, h⟩ := ok_of_bind h
  obtain ⟨set, -, h⟩ := ok_of_bind h
  obtain ⟨setter, hsetter, h⟩ := ok_of_bind h
  obtain ⟨value, -, h⟩ := ok_of_bind h
  obtain ⟨writable, -, h⟩ := ok_of_bind h
  obtain ⟨enumerable, -, h⟩ := ok_of_bind h
  obtain ⟨configurable, -, h⟩ := ok_of_bind h
  split_ifs at h with hboth
  obtain rfl := Except.ok.inj h
  have hgetter' := accessorField_ok hgetter
  have hsetter' := accessorField_ok hsetter
  refine ⟨rfl, hgetter'.imp And.right And.right, hsetter'.imp And.right And.right,
    fun haccessor => ?_⟩
  have hfunctions : get.isSome ∨ set.isSome := by
    rcases hgetter' with ⟨-, rfl⟩ | ⟨hget, -⟩
    · rcases hsetter' with ⟨-, rfl⟩ | ⟨hset, -⟩
      · cases haccessor
      · exact Or.inr hset
    · exact Or.inl hget
  have hnone : value = none ∧ writable = none := by
    simpa using fun hvalue => hboth ⟨hfunctions, hvalue⟩
  obtain ⟨rfl, rfl⟩ := hnone
  rfl

/-- A property that has no value and no function is generic. -/
theorem Described.functions {d : Property} (h : Described d) (haccessor : d.isAccessor = false) :
    d.getter = none ∧ d.setter = none := by
  unfold Property.isAccessor at haccessor
  rw [Bool.or_eq_false_iff] at haccessor
  refine ⟨h.getter.resolve_right ?_, h.setter.resolve_right ?_⟩
  · rw [haccessor.1]
    exact Bool.false_ne_true
  · rw [haccessor.2]
    exact Bool.false_ne_true

theorem Property.isData_eq_false {d : Property} (h : d.isData = false) :
    d.writable = .unset ∧ d.value = none := by
  unfold isData at h
  simpa using h

/-- What a definition makes of a property, by the kind of its descriptor. -/
inductive Updated (prev d r : Property) : Prop
  | generic (hvalue : r.value = prev.value) (hwritable : r.writable = prev.writable)
    (hgetter : r.getter = prev.getter) (hsetter : r.setter = prev.setter)
  | data (hvalue : prev.value.isSome = true → r.value.isSome = true)
    (hvalue' : prev.isData = false → r.value.isSome = true)
    (hgetter : r.getter = if prev.isData then prev.getter else none)
    (hsetter : r.setter = if prev.isData then prev.setter else none)
  | accessor (hvalue : r.value = none) (hwritable : r.writable = .unset)
    (hfunctions : r.getter.isSome = true ∨ r.setter.isSome = true)

theorem isSome_of_isAccessor {d : Property} (h : d.isAccessor = true) :
    d.getter.isSome = true ∨ d.setter.isSome = true := by
  have hsome : ∀ v, isFunctionOrUndefined v = true → v.isSome = true := by
    intro v hv
    cases v with
    | none => cases hv
    | some v => rfl
  exact ((Bool.or_eq_true _ _).mp h).imp (hsome _) (hsome _)

theorem updated_withAttributes {prev d : Property} (hd : Described d)
    (hlive : prev.type = .property) :
    Updated prev d (withAttributes (withFields (converted prev d) d) d) := by
  have hhandler : (converted prev d).isHandler = false := by
    unfold converted Property.isHandler
    split_ifs <;> simp only [hlive]
  cases haccessor : d.isAccessor with
  | true =>
    have hdata := hd.kind haccessor
    obtain ⟨hwritable, hvalue⟩ := Property.isData_eq_false hdata
    have hgeneric : d.isGeneric = false := by simp [Property.isGeneric, haccessor]
    have hfunctions : (d.getter.orElse fun _ => (converted prev d).getter).isSome = true ∨
        (d.setter.orElse fun _ => (converted prev d).setter).isSome = true := by
      refine (isSome_of_isAccessor haccessor).imp (fun h => ?_) fun h => ?_
      · cases hgetter : d.getter with
        | none =>
          rw [hgetter] at h
          cases h
        | some v => rfl
      · cases hsetter : d.setter with
        | none =>
          rw [hsetter] at h
          cases h
        | some v => rfl
    refine .accessor ?_ ?_ hfunctions
    · cases hprev : prev.isData with
      | true =>
        simp [withAttributes, withFields, hvalue, converted, hgeneric, hprev, hdata]
      | false =>
        simp [withAttributes, withFields, hvalue, converted, hprev, hdata,
          (Property.isData_eq_false hprev).2]
    · cases hprev : prev.isData with
      | true =>
        simp [withAttributes, withFields, converted, hgeneric, hprev, hdata, hwritable,
          Attribute.orElse]
      | false =>
        simp [withAttributes, withFields, converted, hprev, hdata, hwritable, Attribute.orElse,
          (Property.isData_eq_false hprev).1]
  | false =>
    obtain ⟨hgetter, hsetter⟩ := hd.functions haccessor
    cases hdata : d.isData with
    | false =>
      obtain ⟨hwritable, hvalue⟩ := Property.isData_eq_false hdata
      have hgeneric : d.isGeneric = true := by simp [Property.isGeneric, haccessor, hdata]
      have hconverted : converted prev d = prev := if_pos (Or.inl hgeneric)
      rw [hconverted] at hhandler ⊢
      refine .generic ?_ ?_ ?_ ?_
      · simp [withAttributes, withFields, hhandler, hvalue]
      · simp [withAttributes, withFields, hwritable, Attribute.orElse]
      · simp [withAttributes, withFields, hgetter]
      · simp [withAttributes, withFields, hsetter]
    | true =>
      have hgeneric : d.isGeneric = false := by simp [Property.isGeneric, hdata]
      refine .data (fun h => ?_) (fun hprev => ?_) ?_ ?_
      · simp only [withAttributes, withFields, hhandler, Bool.false_eq_true, if_false]
        cases hvalue : d.value with
        | some v => rfl
        | none =>
          cases hprev : prev.isData with
          | true => simpa [converted, hprev, hdata] using h
          | false => simp [converted, hgeneric, hprev, hdata]
      · simp only [withAttributes, withFields, hhandler, Bool.false_eq_true, if_false]
        cases hvalue : d.value with
        | some v => rfl
        | none => simp [converted, hgeneric, hprev, hdata]
      · cases hprev : prev.isData with
        | true => simp [withAttributes, withFields, converted, hgetter, hprev, hdata]
        | false => simp [withAttributes, withFields, converted, hgetter, hgeneric, hprev, hdata]
      · cases hprev : prev.isData with
        | true => simp [withAttributes, withFields, converted, hsetter, hprev, hdata]
        | false => simp [withAttributes, withFields, converted, hsetter, hgeneric, hprev, hdata]

theorem completed_type (d : Property) : (completed d).type = d.type := by
  unfold completed
  split_ifs <;> rfl

/-- Operations make no handlers. -/
theorem Transition.simple {op : Op} {e e' : Option Property} (h : Transition op name e e')
    (he : ∀ prop ∈ e, prop.type = .property ∨ prop.type = .whiteout) :
    ∀ prop ∈ e', prop.type = .property ∨ prop.type = .whiteout := by
  cases h with
  | same => exact he
  | assigned key v prop hlive =>
    rintro - ⟨⟩
    exact Or.inl hlive
  | revived | added =>
    rintro - ⟨⟩
    exact Or.inl rfl
  | deleted =>
    rintro - ⟨⟩
    exact Or.inr rfl
  | created reading key desc _ d hd =>
    rintro - ⟨⟩
    exact Or.inl ((completed_type d).trans (described_descriptorProp hd).type)
  | updated reading key desc prev d hd hlive =>
    rintro - ⟨⟩
    exact Or.inl ((withFields_converted_type prev d).trans hlive)

theorem ChainStep.apply_simple (step : ChainStep) {chain : List Object}
    (h : ∀ o ∈ chain, o.Simple) : ∀ o ∈ step.apply chain, o.Simple := by
  have heffect := step.apply_effect h
  generalize step.apply chain = chain' at heffect
  induction heffect with
  | nil => exact h
  | @cons o o' chain chain' ho _ ih =>
    rintro p (_ | ⟨_, hp⟩)
    · have hsimple := h o List.mem_cons_self
      exact ⟨ho.type.trans hsimple.type,
        fun name => (ho.transition name).simple (hsimple.entry name)⟩
    · exact ih (fun p hp => h p (List.mem_cons_of_mem _ hp)) p hp

/-- What holds of the entries and is kept by the operation holds after a step. -/
theorem ChainStep.apply_entries {P : Property → Prop} (step : ChainStep)
    (hkeep : ∀ (name : Name) (e e' : Option Property), Transition step.op name e e' →
      (∀ prop ∈ e, P prop) → ∀ prop ∈ e', P prop) {chain : List Object}
    (hsimple : ∀ o ∈ chain, o.Simple) (h : ∀ o ∈ chain, ∀ name, ∀ prop ∈ o.current name, P prop) :
    ∀ o ∈ step.apply chain, ∀ name, ∀ prop ∈ o.current name, P prop := by
  have heffect := step.apply_effect hsimple
  generalize step.apply chain = chain' at heffect
  clear hsimple
  induction heffect with
  | nil => exact h
  | @cons o o' chain chain' ho _ ih =>
    rintro p (_ | ⟨_, hp⟩) name
    · exact hkeep name _ _ (ho.transition name) (h o List.mem_cons_self name)
    · exact ih (fun p hp => h p (List.mem_cons_of_mem _ hp)) p hp name

/-- What holds of the entries at first, and is kept by every operation, holds in every state. -/
theorem runSteps_entries {P : Property → Prop}
    (hkeep : ∀ (op : Op) (name : Name) (e e' : Option Property), Transition op name e e' →
      (∀ prop ∈ e, P prop) → ∀ prop ∈ e', P prop)
    (steps : List ChainStep) {chain : List Object} (hsimple : ∀ o ∈ chain, o.Simple)
    (h : ∀ o ∈ chain, ∀ name, ∀ prop ∈ o.current name, P prop) :
    (∀ o ∈ runSteps chain steps, o.Simple) ∧
      ∀ o ∈ runSteps chain steps, ∀ name, ∀ prop ∈ o.current name, P prop := by
  induction steps generalizing chain with
  | nil => exact ⟨hsimple, h⟩
  | cons step steps ih =>
    exact ih (step.apply_simple hsimple) (step.apply_entries (hkeep step.op) hsimple h)

end Njs.Objects
