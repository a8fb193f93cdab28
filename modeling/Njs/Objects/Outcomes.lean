import Njs.Objects.Frame

/-!
# What an assignment does to its receiver

`Assigned` lists every outcome of `njs_value_property_set`, each with what the lookup must
have found. The properties of assignments are derived from it.
-/

namespace Njs.Objects

variable {env : Env} {key : PropertyKey} {o o' : Object} {protos : List Object} {setval : Value}
  {q : QueryResult} {result : SetResult}

/-- The prototypes let the assignment add a property to the receiver: they do not have the
property, or theirs may be written and has no handler that does the assignment. -/
def LetsAdd (env : Env) (o : Object) (key : PropertyKey) (setval : Value)
    (protos : List Object) : Prop :=
  match (prototypeQuery env.memory .set key protos).1 with
  | .found _ _ prop => prop.isData = true ∧ prop.writable.holds = true ∧
      ∀ h, prop.type = .handler h →
        propHandler env h o (prototypeQuery env.memory .set key protos).2 setval = .declined
  | .declined => True
  | .error _ => False

/-- The assignment is done by the handler of a property of the receiver or of a prototype. -/
def Handled (env : Env) (o : Object) (protos : List Object) (key : PropertyKey)
    (setval : Value) (h : PropHandler) (outcome : HandlerResult) : Prop :=
  ∃ own target prop, (objectPropertyQuery env.memory .set key false o protos).result =
      .found own target prop ∧ prop.isData = true ∧ prop.writable.holds = true ∧
    prop.type = .handler h ∧ outcome = propHandler env h
      (objectPropertyQuery env.memory .set key false o protos).object
      (objectPropertyQuery env.memory .set key false o protos).protos setval

/-- The receiver has a white-out for the key. -/
def Object.Deleted (o : Object) (key : PropertyKey) (prop : Property) : Prop :=
  o.isElement key = false ∧ o.owns key = false ∧ o.hash.lookup key.name = some prop ∧
    prop.type = .whiteout

/-- What an assignment returns and what it makes of the receiver. -/
inductive Assigned (env : Env) (o : Object) (protos : List Object) (key : PropertyKey)
    (setval : Value) : SetResult → Object → Prop
  | error (e : Error) (o' : Object) (hsame : o.Same o') :
    Assigned env o protos key setval (.error e) o'
  | setter (f : ℕ) (o' : Object) (hsame : o.Same o') :
    Assigned env o protos key setval (.setter f) o'
  /-- The element of an array. -/
  | element (start : List (Option Value)) (i : ℕ) (htype : o.type = .array start)
    (hindex : key.index = some i) (hlt : i < start.length) :
    Assigned env o protos key setval .ok (o.setElements (start.set i (some setval)))
  /-- An element behind the end of an array. -/
  | grown (start : List (Option Value)) (i : ℕ) (stale : Option Value)
    (htype : o.type = .array start) (hindex : key.index = some i) (hle : start.length ≤ i)
    (hexpand : env.memory.expand start (i - start.length + 1) = some stale) :
    Assigned env o protos key setval .ok
      (o.setElements ((grownElements start i stale).set i (some setval)))
  /-- The own property in a hash. -/
  | entry (prop : Property) (o' : Object) (hkey : o.isElement key = false)
    (hfind : o.find key.name = some prop) (htype : prop.type = .property)
    (hdata : prop.isData = true) (hwritable : prop.writable.holds = true) (hsame : o.Same o')
    (hfound : ownQuery env.memory .set key o = (.found .entry prop, o'))
    (hentry : o'.hash.lookup key.name = some prop) :
    Assigned env o protos key setval .ok
      (o'.setProperty key.name { prop with value := some setval })
  /-- The property that was deleted. -/
  | revived (prop : Property) (hdeleted : o.Deleted key prop)
    (hadd : LetsAdd env o key setval protos) :
    Assigned env o protos key setval .ok (o.setProperty key.name (revived prop setval))
  /-- A property that there never was. -/
  | inserted (hkey : o.isElement key = false) (howns : o.owns key = false)
    (hnone : o.hash.lookup key.name = none) (hextensible : o.extensible = true) :
    Assigned env o protos key setval .ok
      (o.setProperty key.name (objectPropAlloc (some setval) .yes))
  /-- The handler of a property. -/
  | handled (h : PropHandler) (o' : Object) (protos' : List Object)
    (hhandled : Handled env o protos key setval h (.ok o' protos')) :
    Assigned env o protos key setval .ok o'
  | handlerError (h : PropHandler) (e : Error) (o' : Object) (protos' : List Object)
    (hhandled : Handled env o protos key setval h (.error e o' protos')) :
    Assigned env o protos key setval (.error e) o'

/-- The end of an assignment that adds a property. -/
theorem assigned_addProperty (hkey : o.isElement key = false) (howns : o.owns key = false)
    (hobject : q.object = o)
    (hwhite : q.ownWhiteout = true → ∃ prop, o.hash.lookup key.name = some prop ∧
      prop.type = .whiteout)
    (hnone : q.ownWhiteout = false → o.hash.lookup key.name = none)
    (hadd : LetsAdd env o key setval protos) :
    Assigned env o protos key setval (addProperty env key setval q).1
      (addProperty env key setval q).2.1 := by
  unfold addProperty
  rw [hobject]
  cases hq : q.ownWhiteout with
  | true =>
    obtain ⟨prop, hlookup, htype⟩ := hwhite hq
    rw [hlookup]
    exact .revived prop ⟨hkey, howns, hlookup, htype⟩ hadd
  | false =>
    cases hextensible : o.extensible with
    | false =>
      exact .error _ o (.refl o)
    | true =>
      simp only [Bool.not_true, Bool.false_eq_true, if_false]
      split_ifs
      · exact .error _ o (.refl o)
      · exact .error _ o (.refl o)
      · exact .inserted hkey howns (hnone hq) hextensible

/-- An assignment to what the lookup found has a handler, which does it or not. -/
theorem assigned_assignProperty {own : Bool} {target : Target} {prop : Property}
    (hq : q = objectPropertyQuery env.memory .set key false o protos)
    (hfound : q.result = .found own target prop) (hdata : prop.isData = true)
    (hwritable : prop.writable.holds = true)
    (hstore : (∀ h, prop.type = .handler h →
        propHandler env h q.object q.protos setval = .declined) →
      Assigned env o protos key setval (storeProperty env key setval q own target prop).1
        (storeProperty env key setval q own target prop).2.1) :
    Assigned env o protos key setval (assignProperty env key setval q own target prop).1
      (assignProperty env key setval q own target prop).2.1 := by
  unfold assignProperty
  cases htype : prop.type with
  | handler h =>
    have hhandled : ∀ outcome, propHandler env h q.object q.protos setval = outcome →
        Handled env o protos key setval h outcome := by
      rintro outcome rfl
      subst hq
      exact ⟨own, target, prop, hfound, hdata, hwritable, htype, rfl⟩
    cases houtcome : propHandler env h q.object q.protos setval with
    | ok o' protos' =>
      simp only [houtcome]
      exact .handled h o' protos' (hhandled _ houtcome)
    | error e o' protos' =>
      simp only [houtcome]
      exact .handlerError h e o' protos' (hhandled _ houtcome)
    | declined =>
      simp only [houtcome]
      refine hstore fun h' h'type => ?_
      rw [htype] at h'type
      rw [← PropertyType.handler.inj h'type]
      exact houtcome
  | property =>
    simp only
    exact hstore fun h h'type => by rw [htype] at h'type; cases h'type
  | ref =>
    simp only
    exact hstore fun h h'type => by rw [htype] at h'type; cases h'type
  | whiteout =>
    simp only
    exact hstore fun h h'type => by rw [htype] at h'type; cases h'type

/-- What is found in a prototype is not own. -/
theorem prototypeQuery_own {memory : Memory} {own : Bool} {target : Target} {prop : Property}
    (h : (prototypeQuery memory .set key protos).1 = .found own target prop) : own = false := by
  induction protos with
  | nil => cases h
  | cons o protos ih =>
    unfold prototypeQuery at h
    rcases hlocal : ownQuery memory .set key o with ⟨result, o'⟩
    rw [hlocal] at h
    cases result with
    | found target' prop' =>
      injection h with hown
      exact hown.symm
    | declined => cases h
    | error e => cases h
    | whiteout => exact ih h
    | absent => exact ih h

/-- The assignment of a property that the receiver does not have. -/
theorem assigned_beyond {white : Bool}
    (hq : objectPropertyQuery env.memory .set key false o protos =
      ⟨(prototypeQuery env.memory .set key protos).1, white, o,
        (prototypeQuery env.memory .set key protos).2⟩)
    (hkey : o.isElement key = false) (howns : o.owns key = false)
    (hwhite : white = true → ∃ prop, o.hash.lookup key.name = some prop ∧ prop.type = .whiteout)
    (hnone : white = false → o.hash.lookup key.name = none) :
    Assigned env o protos key setval (valuePropertySet env o protos key setval).1
      (valuePropertySet env o protos key setval).2.1 := by
  have hadd := @assigned_addProperty env _ _ protos setval (objectPropertyQuery env.memory .set key
    false o protos) hkey howns (by rw [hq]) (by rw [hq]; exact hwhite) (by rw [hq]; exact hnone)
  have hobject : (objectPropertyQuery env.memory .set key false o protos).object = o := by rw [hq]
  unfold valuePropertySet
  simp only
  cases hfound : (objectPropertyQuery env.memory .set key false o protos).result with
  | error e =>
    rw [hobject]
    exact .error e o (.refl o)
  | declined =>
    have hproto : (prototypeQuery env.memory .set key protos).1 = .declined := by
      rw [hq] at hfound
      exact hfound
    refine hadd ?_
    unfold LetsAdd
    rw [hproto]
    trivial
  | found own target prop =>
    have hproto : (prototypeQuery env.memory .set key protos).1 = .found own target prop := by
      rw [hq] at hfound
      exact hfound
    obtain rfl := prototypeQuery_own hproto
    simp only
    split_ifs with hdata hwritable
    · refine assigned_assignProperty rfl hfound hdata hwritable fun hdeclined => ?_
      refine hadd ?_
      rw [hq] at hdeclined
      unfold LetsAdd
      rw [hproto]
      exact ⟨hdata, hwritable, hdeclined⟩
    · rw [hobject]
      exact .error _ o (.refl o)
    · rw [hobject]
      split
      · exact .setter _ o (.refl o)
      · exact .error _ o (.refl o)

/-- The assignment of a property that the receiver has. -/
theorem assigned_own {target : Target} {prop : Property} {o' : Object}
    (hq : objectPropertyQuery env.memory .set key false o protos =
      ⟨.found true target prop, false, o', protos⟩) (hsame : o.Same o')
    (hstore : prop.isData = true → prop.writable.holds = true →
      Assigned env o protos key setval
        (storeProperty env key setval ⟨.found true target prop, false, o', protos⟩ true target
          prop).1
        (storeProperty env key setval ⟨.found true target prop, false, o', protos⟩ true target
          prop).2.1) :
    Assigned env o protos key setval (valuePropertySet env o protos key setval).1
      (valuePropertySet env o protos key setval).2.1 := by
  unfold valuePropertySet
  simp only [hq]
  split_ifs with hdata hwritable
  · exact assigned_assignProperty hq.symm rfl hdata hwritable fun _ => hstore hdata hwritable
  · exact .error _ o' hsame
  · split
    · exact .setter _ o' hsame
    · exact .error _ o' hsame

/-- The assignment of an own property that may be written and has no handler. -/
theorem valuePropertySet_found {target : Target} {prop : Property}
    (hlocal : ownQuery env.memory .set key o = (.found target prop, o'))
    (hdata : prop.isData = true) (hwritable : prop.writable.holds = true)
    (hhandler : ∀ h, prop.type ≠ .handler h) :
    valuePropertySet env o protos key setval =
      storeProperty env key setval ⟨.found true target prop, false, o', protos⟩ true
          target prop := by
  have hq : objectPropertyQuery env.memory .set key false o protos =
      ⟨.found true target prop, false, o', protos⟩ := by
    simp only [objectPropertyQuery, hlocal]
  simp only [valuePropertySet, hq, if_pos hdata, if_pos hwritable, assignProperty]

/-- The assignment of an own property in a hash. -/
theorem valuePropertySet_entry {prop : Property}
    (hlocal : ownQuery env.memory .set key o = (.found .entry prop, o'))
    (htype : prop.type = .property) (hdata : prop.isData = true)
    (hwritable : prop.writable.holds = true) :
    valuePropertySet env o protos key setval =
      (.ok, o'.setProperty key.name { prop with value := some setval }, protos) := by
  rw [valuePropertySet_found hlocal hdata hwritable (by rw [htype]; nofun)]
  simp only [storeProperty, htype, if_true]

/-- The assignment of an element of an array. -/
theorem valuePropertySet_element {start : List (Option Value)} {i : ℕ}
    (htype : o.type = .array start) (hindex : key.index = some i) (hlt : i < start.length) :
    valuePropertySet env o protos key setval =
      (.ok, o.setElements (start.set i (some setval)), protos) := by
  have hlocal : ownQuery env.memory .set key o =
      (.found (.element i) (elementProperty .ref none), o) := by
    simp only [ownQuery, htype, hindex, arrayPropertyQuery, if_neg (Nat.not_le.mpr hlt),
      reduceCtorEq, if_false]
    rw [Object.setElements_self htype]
  rw [valuePropertySet_found hlocal rfl rfl (by rintro _ ⟨⟩)]
  simp only [storeProperty, elementProperty, if_true, Object.storeElement, htype]

/-- The assignment behind the end of an array. -/
theorem valuePropertySet_grown {start : List (Option Value)} {i : ℕ} {stale : Option Value}
    (htype : o.type = .array start) (hindex : key.index = some i) (hle : start.length ≤ i)
    (hexpand : env.memory.expand start (i - start.length + 1) = some stale) :
    valuePropertySet env o protos key setval =
      (.ok, o.setElements ((grownElements start i stale).set i (some setval)), protos) := by
  have hlocal := ownQuery_grown htype hindex hle hexpand
  rw [valuePropertySet_found hlocal rfl rfl nofun]
  rfl

/-- What the lookup in the receiver leaves for the assignment to do. -/
theorem assigned_looked {found : Local} (hlooked : Looked env.memory key o found o')
    (hlocal : ownQuery env.memory .set key o = (found, o')) :
    Assigned env o protos key setval (valuePropertySet env o protos key setval).1
      (valuePropertySet env o protos key setval).2.1 := by
  have hfound : ∀ target prop, found = .found target prop →
      objectPropertyQuery env.memory .set key false o protos =
        ⟨.found true target prop, false, o', protos⟩ := by
    rintro target prop rfl
    simp only [objectPropertyQuery, hlocal]
  have herror : ∀ e, found = .error e → valuePropertySet env o protos key setval =
      (.error e, o', protos) := by
    rintro e rfl
    simp only [valuePropertySet, objectPropertyQuery, hlocal]
  cases hlooked with
  | grown start i stale htype hindex hle hexpand =>
    rw [valuePropertySet_grown htype hindex hle hexpand]
    exact .grown start i stale htype hindex hle hexpand
  | refused start i htype hindex hle hexpand =>
    rw [herror _ rfl]
    exact .error _ o (.refl o)
  | element start i htype hindex hlt =>
    rw [valuePropertySet_element htype hindex hlt]
    exact .element start i htype hindex hlt
  | character value i c htype hindex hc =>
    refine assigned_own (hfound _ _ rfl) (.refl o) fun _ hwritable => ?_
    cases hwritable
  | entry prop _ hkey hfind hlive hentry hsame =>
    refine assigned_own (hfound _ _ rfl) hsame fun hdata hwritable => ?_
    cases htype : prop.type with
    | property =>
      have hset := @valuePropertySet_entry _ _ _ _ protos setval _ hlocal htype hdata hwritable
      rw [valuePropertySet_found hlocal hdata hwritable (by rw [htype]; nofun)] at hset
      rw [hset]
      exact .entry prop o' hkey hfind htype hdata hwritable hsame hlocal hentry
    | ref =>
      simp only [storeProperty, htype, if_true]
      exact .error _ o' hsame
    | handler h =>
      simp only [storeProperty, htype, if_true]
      exact .error _ o' hsame
    | whiteout => exact absurd htype hlive
  | shared prop hkey hfind hlive hpost =>
    refine assigned_own (hfound _ _ rfl) (.refl o) fun _ _ => ?_
    simp only [storeProperty, if_true]
    exact .error _ o (.refl o)
  | failed prop e _ hkey hfind hsame =>
    rw [herror e rfl]
    exact .error e o' hsame
  | whiteout prop hkey hwhite htype howns =>
    refine @assigned_beyond _ _ _ _ _ true ?_ hkey howns (fun _ => ⟨prop, hwhite, htype⟩) nofun
    simp only [objectPropertyQuery, hlocal, Bool.false_eq_true, if_false]
  | absent hkey hnone howns =>
    refine @assigned_beyond _ _ _ _ _ false ?_ hkey howns nofun fun _ => hnone
    simp only [objectPropertyQuery, hlocal, Bool.false_eq_true, if_false]

/-- Every assignment has one of the outcomes. -/
theorem assigned_valuePropertySet (env : Env) (o : Object) (protos : List Object)
    (key : PropertyKey) (setval : Value) :
    Assigned env o protos key setval (valuePropertySet env o protos key setval).1
      (valuePropertySet env o protos key setval).2.1 :=
  assigned_looked (looked_ownQuery env.memory key o) rfl

/-! ## Deletions -/

/-- What a deletion makes of the object. -/
inductive Removed (env : Env) (o : Object) (key : PropertyKey) : Object → Prop
  | same (o' : Object) (hsame : o.Same o') : Removed env o key o'
  /-- An element of an array becomes a hole. -/
  | element (start : List (Option Value)) (i : ℕ) (htype : o.type = .array start)
    (hindex : key.index = some i) (hlt : i < start.length) :
    Removed env o key (o.setElements (start.set i none))
  /-- The property becomes a white-out. -/
  | entry (prop : Property) (o' : Object)
    (hfound : ownQuery env.memory .delete key o = (.found .entry prop, o'))
    (hentry : o'.hash.lookup key.name = some prop) (hfind : o.find key.name = some prop)
    (hsame : o.Same o') (hconfigurable : prop.configurable.holds = true) :
    Removed env o key (o'.setProperty key.name (deleted prop))

/-- The deletion of an element of an array. -/
theorem valuePropertyDelete_element {start : List (Option Value)} {i : ℕ}
    (htype : o.type = .array start) (hindex : key.index = some i) (hlt : i < start.length) :
    (valuePropertyDelete env o protos key).2 = o.setElements (start.set i none) := by
  have hlocal : ownQuery env.memory .delete key o =
      (.found (.element i) (elementProperty .ref none), o) := by
    simp only [ownQuery, htype, hindex, arrayPropertyQuery, if_neg (Nat.not_le.mpr hlt),
      reduceCtorEq, if_false]
    rw [Object.setElements_self htype]
  have hstore : o.storeElement i none = o.setElements (start.set i none) := by
    simp only [Object.storeElement, htype]
  rw [← hstore]
  simp only [valuePropertyDelete, objectPropertyQuery, hlocal, elementProperty, objectPropAlloc,
    Attribute.holds, Bool.not_true, Bool.false_eq_true, if_false, htype]

/-- The deletion of a property in a hash. -/
theorem valuePropertyDelete_entry {prop : Property}
    (hfound : ownQuery env.memory .delete key o = (.found .entry prop, o'))
    (hlive : prop.type ≠ .whiteout) (hconfigurable : prop.configurable.holds = true) :
    (valuePropertyDelete env o protos key).2 = o'.setProperty key.name (deleted prop) := by
  simp only [valuePropertyDelete, objectPropertyQuery, hfound, hconfigurable, Bool.not_true,
    Bool.false_eq_true, if_false]

/-- The deletion of a property that is not an element of an array. -/
theorem removed_hash (hkey : ownQuery env.memory .delete key o = hashQuery env.memory key.name o) :
    Removed env o key (valuePropertyDelete env o protos key).2 := by
  rcases hashQuery_cases env.memory key.name o with ⟨prop, hfind, hlive, h | h | h⟩ | h | h
  · obtain ⟨o', hquery, hentry, hsame⟩ := h
    have hfound := hkey.trans hquery
    by_cases hconfigurable : prop.configurable.holds = true
    · rw [valuePropertyDelete_entry hfound hlive hconfigurable]
      exact .entry prop o' hfound hentry hfind hsame hconfigurable
    · simp only [valuePropertyDelete, objectPropertyQuery, hfound, hconfigurable, Bool.not_false,
        if_true]
      exact .same o' hsame
  · obtain ⟨hquery, hpost⟩ := h
    have hconfigurable : prop.configurable.holds = false := by
      unfold Property.postponed at hpost
      split at hpost
      · simpa using hpost
      · cases hpost
    simp only [valuePropertyDelete, objectPropertyQuery, hkey.trans hquery, hconfigurable,
      Bool.not_false, if_true]
    exact .same o (.refl o)
  · obtain ⟨e, o', hquery, hsame⟩ := h
    simp only [valuePropertyDelete, objectPropertyQuery, hkey.trans hquery]
    exact .same o' hsame
  · obtain ⟨prop, -, -, hquery⟩ := h
    simp only [valuePropertyDelete, objectPropertyQuery, hkey.trans hquery, if_true]
    exact .same o (.refl o)
  · obtain ⟨-, -, hquery⟩ := h
    simp only [valuePropertyDelete, objectPropertyQuery, hkey.trans hquery, if_true]
    exact .same o (.refl o)

/-- Every deletion has one of the outcomes. -/
theorem removed_valuePropertyDelete (env : Env) (o : Object) (protos : List Object)
    (key : PropertyKey) : Removed env o key (valuePropertyDelete env o protos key).2 := by
  rcases htype : o.type with - | start | value
  · exact removed_hash (by simp only [ownQuery, htype])
  · rcases hindex : key.index with - | i
    · exact removed_hash (by simp only [ownQuery, htype, hindex])
    · by_cases hlt : i < start.length
      · rw [valuePropertyDelete_element htype hindex hlt]
        exact .element start i htype hindex hlt
      · have hlocal : ownQuery env.memory .delete key o = (.declined, o) := by
          simp only [ownQuery, htype, hindex, arrayPropertyQuery, if_pos (Nat.not_lt.mp hlt),
            ne_eq, reduceCtorEq, not_false_eq_true, if_true]
          rw [Object.setElements_self htype]
        simp only [valuePropertyDelete, objectPropertyQuery, hlocal]
        exact .same o (.refl o)
  · rcases hindex : key.index with - | i
    · exact removed_hash (by simp only [ownQuery, htype, hindex])
    · by_cases hlt : i < stringMaxLength
      · rcases hc : value[i]? with - | c
        · exact removed_hash (by simp only [ownQuery, htype, hindex, hc, ite_self])
        · have hlocal : ownQuery env.memory .delete key o =
              (.found .character (characterProperty c), o) := by
            simp only [ownQuery, htype, hindex, hc, if_pos hlt]
          simp only [valuePropertyDelete, objectPropertyQuery, hlocal, characterProperty,
            Attribute.holds, Bool.not_false, if_true]
          exact .same o (.refl o)
      · exact removed_hash (by simp only [ownQuery, htype, hindex, if_neg hlt])

end Njs.Objects
