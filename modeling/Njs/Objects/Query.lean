import Njs.Objects.Property

/-!
# Looking properties up

`njs_property_query` walks the prototype chain of an object. The walk may change the objects
on it: a property in a shared hash is copied to the object's own hash, and a lookup for an
assignment makes an array long enough for the index.
-/

namespace Njs.Objects

/-- `NJS_PROPERTY_QUERY_GET`, `NJS_PROPERTY_QUERY_SET` and `NJS_PROPERTY_QUERY_DELETE`. -/
inductive Query
  | get
  | set
  | delete
  deriving DecidableEq

/-- What `pq->lhq.value` points to. -/
inductive Target
  /-- A property in the object's hash. -/
  | entry
  /-- A property in the shared hash: `pq->shared` is set. -/
  | shared
  /-- A scratch property for an element of an array. -/
  | element (i : ℕ)
  /-- A scratch property for a character. -/
  | character
  deriving DecidableEq

/-- What one object adds to a lookup. -/
inductive Local
  | found (target : Target) (prop : Property)
  /-- There is a white-out in the object's hash. -/
  | whiteout
  | absent
  /-- `NJS_DECLINED`, without a look at the prototypes. -/
  | declined
  | error (e : Error)
  deriving DecidableEq

/-- The scratch property for an element. -/
def elementProperty (type : PropertyType) (value : Option Value) : Property :=
  { objectPropAlloc value .yes with type := type }

/-- The scratch property for a character. -/
def characterProperty (c : Name) : Property where
  type := .property
  value := some (.string c)
  getter := none
  setter := none
  writable := .no
  enumerable := .yes
  configurable := .no

/-- The elements after `njs_array_expand` and its caller's loop: the last one is stale. -/
def grownElements (start : List (Option Value)) (index : ℕ) (stale : Option Value) :
    List (Option Value) :=
  start ++ List.replicate (index - start.length) none ++ [stale]

/-- `njs_array_property_query`. -/
def arrayPropertyQuery (memory : Memory) (query : Query) (start : List (Option Value))
    (index : ℕ) : Local × List (Option Value) :=
  if start.length ≤ index then
    if query ≠ .set then (.declined, start)
    else
      match memory.expand start (index - start.length + 1) with
      | some stale =>
        (.found (.element index) (elementProperty .ref none), grownElements start index stale)
      | none => (.error (.exception .memoryError), start)
  else if query = .get then
    match (start[index]?).getD none with
    | some v => (.found (.element index) (elementProperty .property (some v)), start)
    | none => (.declined, start)
  else (.found (.element index) (elementProperty .ref none), start)

/-- A function is among the values of the property. -/
def Property.hasFunction (prop : Property) : Bool :=
  [prop.value, prop.getter, prop.setter].any fun v => (v.map Value.isFunction).getD false

/-- `njs_prop_private_copy`. The copy of a function is not told apart from it. -/
def propPrivateCopy (memory : Memory) (o : Object) (name : Name) (prop : Property) :
    Local × Object :=
  if !memory.property then (.error (.exception .memoryError), o)
  else if !memory.insert then (.error (.internal "lvlhsh insert failed" []), o)
  else if prop.hasFunction && !memory.function then
    (.error (.exception .memoryError), o.setProperty name prop)
  else (.found .entry prop, o.setProperty name prop)

/-- The property is one that `njs_object_property_query` does not copy: it cannot be
configured, and has a handler. -/
def Property.postponed (prop : Property) : Bool :=
  match prop.type with
  | .handler _ => !prop.configurable.holds
  | _ => false

/-- The lookup in the hashes of an object. -/
def hashQuery (memory : Memory) (name : Name) (o : Object) : Local × Object :=
  match o.hash.lookup name with
  | some prop => if prop.type ≠ .whiteout then (.found .entry prop, o) else (.whiteout, o)
  | none =>
    match o.sharedHash.lookup name with
    | some prop =>
      if prop.postponed then (.found .shared prop, o) else propPrivateCopy memory o name prop
    | none => (.absent, o)

/-- The body of the loop of `njs_object_property_query`. -/
def ownQuery (memory : Memory) (query : Query) (key : PropertyKey) (o : Object) :
    Local × Object :=
  match o.type, key.index with
  | .array start, some i =>
    let (result, start) := arrayPropertyQuery memory query start i
    (result, o.setElements start)
  | .string value, some i =>
    if i < stringMaxLength then
      match value[i]? with
      | some c => (.found .character (characterProperty c), o)
      | none => hashQuery memory key.name o
    else hashQuery memory key.name o
  | _, _ => hashQuery memory key.name o

/-- The result of a lookup. -/
inductive Lookup
  /-- `NJS_OK`, with the property, and whether it is own. -/
  | found (own : Bool) (target : Target) (prop : Property)
  /-- `NJS_DECLINED`. -/
  | declined
  /-- `NJS_ERROR`. -/
  | error (e : Error)
  deriving DecidableEq

/-- The loop of `njs_object_property_query` over the prototypes. -/
def prototypeQuery (memory : Memory) (query : Query) (key : PropertyKey) :
    List Object → Lookup × List Object
  | [] => (.declined, [])
  | o :: protos =>
    match ownQuery memory query key o with
    | (.found target prop, o) => (.found false target prop, o :: protos)
    | (.declined, o) => (.declined, o :: protos)
    | (.error e, o) => (.error e, o :: protos)
    | (_, o) =>
      let (result, protos) := prototypeQuery memory query key protos
      (result, o :: protos)

/-- The outcome of a lookup: its result, whether `pq->own_whiteout` is set, and the object
and its prototypes afterwards. -/
structure QueryResult where
  result : Lookup
  ownWhiteout : Bool
  object : Object
  protos : List Object

/-- `njs_object_property_query`, where `own` limits the lookup to own properties. -/
def objectPropertyQuery (memory : Memory) (query : Query) (key : PropertyKey) (own : Bool)
    (o : Object) (protos : List Object) : QueryResult :=
  match ownQuery memory query key o with
  | (.found target prop, o) => ⟨.found true target prop, false, o, protos⟩
  | (.declined, o) => ⟨.declined, false, o, protos⟩
  | (.error e, o) => ⟨.error e, false, o, protos⟩
  | (.whiteout, o) =>
    if own then ⟨.declined, true, o, protos⟩
    else
      let (result, protos) := prototypeQuery memory query key protos
      ⟨result, true, o, protos⟩
  | (.absent, o) =>
    if own then ⟨.declined, false, o, protos⟩
    else
      let (result, protos) := prototypeQuery memory query key protos
      ⟨result, false, o, protos⟩

/-! ## What a lookup leaves of the objects -/

variable {memory : Memory} {query : Query} {key : PropertyKey} {name : Name} {o o' : Object}
  {protos : List Object} {result : Local}

/-- What a lookup in the hashes finds, and what it leaves. -/
theorem hashQuery_cases (memory : Memory) (name : Name) (o : Object) :
    (∃ prop, o.find name = some prop ∧ prop.type ≠ .whiteout ∧
      ((∃ o', hashQuery memory name o = (.found .entry prop, o') ∧
          o'.hash.lookup name = some prop ∧ o.Same o') ∨
        (hashQuery memory name o = (.found .shared prop, o) ∧ prop.postponed = true) ∨
        ∃ e o', hashQuery memory name o = (.error e, o') ∧ o.Same o')) ∨
    (∃ prop, o.hash.lookup name = some prop ∧ prop.type = .whiteout ∧
      hashQuery memory name o = (.whiteout, o)) ∨
    (o.hash.lookup name = none ∧ o.find name = none ∧ hashQuery memory name o = (.absent, o)) := by
  rcases hhash : o.hash.lookup name with - | prop
  · rcases hshared : o.sharedHash.lookup name with - | prop
    · have hfind : o.find name = none := by
        unfold Object.find
        rw [hhash]
        exact hshared
      refine Or.inr (Or.inr ⟨rfl, hfind, ?_⟩)
      simp only [hashQuery, hhash, hshared]
    · have hlive := o.shared_live name prop hshared
      have hfind : o.find name = some prop := by
        unfold Object.find
        rw [hhash]
        exact hshared
      refine Or.inl ⟨prop, hfind, hlive, ?_⟩
      have hsame := Object.setProperty_same hfind hlive fun entry hentry => by
        rw [hhash] at hentry
        cases hentry
      by_cases hpost : prop.postponed = true
      · exact Or.inr (Or.inl ⟨by simp only [hashQuery, hhash, hshared, hpost, if_true], hpost⟩)
      · have hquery : hashQuery memory name o = propPrivateCopy memory o name prop := by
          simp only [hashQuery, hhash, hshared, hpost, Bool.false_eq_true, if_false]
        rw [hquery]
        unfold propPrivateCopy
        split_ifs
        · exact Or.inr (Or.inr ⟨_, o, rfl, .refl o⟩)
        · exact Or.inr (Or.inr ⟨_, o, rfl, .refl o⟩)
        · exact Or.inr (Or.inr ⟨_, _, rfl, hsame⟩)
        · exact Or.inl ⟨_, rfl, AList.lookup_insert _, hsame⟩
  · by_cases hwhite : prop.type = .whiteout
    · exact Or.inr (Or.inl ⟨prop, rfl, hwhite, by simp [hashQuery, hhash, hwhite]⟩)
    · have hfind : o.find name = some prop := by
        unfold Object.find
        rw [hhash]
        exact if_neg hwhite
      exact Or.inl ⟨prop, hfind, hwhite, Or.inl ⟨o, by simp [hashQuery, hhash, hwhite], hhash,
        .refl o⟩⟩

/-- A property that is found in the hash is there. -/
theorem hashQuery_entry {prop : Property} (h : (hashQuery memory name o).1 = .found .entry prop) :
    o.find name = some prop ∧ prop.type ≠ .whiteout := by
  rcases hashQuery_cases memory name o with ⟨prop', hfind, hlive, h' | h' | h'⟩ | h' | h'
  · obtain ⟨o', hquery, -⟩ := h'
    rw [hquery] at h
    obtain ⟨-, rfl⟩ := Local.found.inj h
    exact ⟨hfind, hlive⟩
  · rw [h'.1] at h
    cases (Local.found.inj h).1
  · obtain ⟨e, o', hquery, -⟩ := h'
    rw [hquery] at h
    cases h
  · obtain ⟨-, -, -, hquery⟩ := h'
    rw [hquery] at h
    cases h
  · rw [h'.2.2] at h
    cases h

/-- The elements of an array are not found in the hash. -/
theorem arrayPropertyQuery_entry {start : List (Option Value)} {index : ℕ} {prop : Property} :
    (arrayPropertyQuery memory query start index).1 ≠ .found .entry prop := by
  unfold arrayPropertyQuery
  split_ifs
  · nofun
  · split <;> nofun
  · split <;> nofun
  · nofun

/-- What a lookup finds in the hash is there. -/
theorem ownQuery_entry {prop : Property}
    (h : (ownQuery memory query key o).1 = .found .entry prop) :
    o.find key.name = some prop ∧ prop.type ≠ .whiteout := by
  unfold ownQuery at h
  split at h
  · exact absurd h arrayPropertyQuery_entry
  · split_ifs at h
    · split at h
      · cases (Local.found.inj h).1
      · exact hashQuery_entry h
    · exact hashQuery_entry h
  · exact hashQuery_entry h

end Njs.Objects
