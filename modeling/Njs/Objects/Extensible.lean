import Njs.Objects.Outcomes

/-!
# Objects that are not extensible

An assignment tests the flag of its receiver only where it makes a new entry in the hash. A
deleted property comes back without the test, and so do elements of arrays: they fill holes
and make the array longer.
-/

namespace Njs.Objects

variable {env : Env} {key : PropertyKey} {o o' : Object} {protos protos' : List Object}
  {setval : Value}

/-- An assignment to an object that is not extensible fails or makes no property own. -/
def DoesNotGrow (env : Env) (o : Object) (protos : List Object) (key : PropertyKey)
    (setval : Value) : Prop :=
  o.extensible = false →
    (∃ e, (valuePropertySet env o protos key setval).1 = .error e) ∨
      ∀ k, (valuePropertySet env o protos key setval).2.1.owns k = true → o.owns k = true

/-- The routes around the test. -/
inductive Extends (env : Env) (o : Object) (protos : List Object) (key : PropertyKey)
    (setval : Value) : Prop
  /-- The key is a hole of an array. -/
  | hole (start : List (Option Value)) (i : ℕ) (htype : o.type = .array start)
    (hindex : key.index = some i) (hhole : start[i]? = some none)
  /-- The key is an index behind the end of an array, and there is memory for the element. -/
  | grown (hgrows : o.Grows env.memory key)
  /-- The property has been deleted, and the prototypes let it be added. -/
  | deleted (prop : Property) (hdeleted : o.Deleted key prop)
    (hadd : LetsAdd env o key setval protos)
  /-- A handler, not the one of the length of an array, makes a property own. -/
  | handled (h : ℕ) (o' : Object) (protos' : List Object)
    (hhandled : Handled env o protos key setval (.other h) (.ok o' protos'))
    (hadds : ∃ k, o'.owns k = true ∧ o.owns k = false)

/-- The lookup leaves the receiver to a handler as it was. -/
theorem Handled.same {h : PropHandler} {outcome : HandlerResult}
    (hhandled : Handled env o protos key setval h outcome) :
    o.Same (objectPropertyQuery env.memory .set key false o protos).object := by
  obtain ⟨own, target, prop, hfound, -, -, htype, -⟩ := hhandled
  have hlooked := looked_ownQuery env.memory key o
  unfold objectPropertyQuery at hfound ⊢
  rcases hlocal : ownQuery env.memory .set key o with ⟨result, o'⟩
  rw [hlocal] at hlooked hfound
  have hsame : o.Same o' := by
    rcases hlooked.grows_or_same with ⟨⟨start, i, stale, harray, hindex, hle, hexpand⟩, -⟩ | h
    · rw [ownQuery_grown harray hindex hle hexpand] at hlocal
      obtain ⟨rfl, -⟩ := Prod.mk.inj hlocal
      injection hfound with _ _ hprop
      rw [← hprop] at htype
      cases htype
    · exact h.2
  cases result <;> exact hsame

/-- What a handler returns is what the assignment returns. -/
theorem Handled.set {h : PropHandler}
    (hhandled : Handled env o protos key setval h (.ok o' protos')) :
    valuePropertySet env o protos key setval = (.ok, o', protos') := by
  obtain ⟨own, target, prop, hfound, hdata, hwritable, htype, houtcome⟩ := hhandled
  unfold valuePropertySet
  simp only [hfound, if_pos hdata, if_pos hwritable, assignProperty, htype, ← houtcome]

theorem Handled.set_error {h : PropHandler} {e : Error}
    (hhandled : Handled env o protos key setval h (.error e o' protos')) :
    valuePropertySet env o protos key setval = (.error e, o', protos') := by
  obtain ⟨own, target, prop, hfound, hdata, hwritable, htype, houtcome⟩ := hhandled
  unfold valuePropertySet
  simp only [hfound, if_pos hdata, if_pos hwritable, assignProperty, htype, ← houtcome]

/-- The elements of an array whose length is set were its elements before. -/
theorem resizedElements_getElem? {start : List (Option Value)} {length i : ℕ}
    (h : (((resizedElements start length)[i]?).getD none).isSome = true) :
    ((start[i]?).getD none).isSome = true := by
  unfold resizedElements at h
  rw [List.getElem?_append] at h
  split_ifs at h
  · rw [List.getElem?_take] at h
    split_ifs at h
    · exact h
    · cases h
  · rw [List.getElem?_replicate] at h
    split_ifs at h <;> cases h

/-- The handler of the length of an array sets the length. -/
theorem arrayLength_ok (h : arrayLength env o protos setval = .ok o' protos') :
    ∃ start num, o.type = .array start ∧ valueToNumber env setval = .ok num ∧
      o' = o.setElements (resizedElements start (numberToLength num)) := by
  unfold arrayLength at h
  split at h
  · rename_i start htype
    split at h
    · cases h
    · rename_i num hnum
      simp only at h
      split_ifs at h
      exact ⟨start, num, htype, hnum, (HandlerResult.ok.inj h).1.symm⟩
  · cases h

/-- The handler of the length of an array makes no property own. -/
theorem arrayLength_owns (h : arrayLength env o protos setval = .ok o' protos')
    (k : PropertyKey) (howns : o'.owns k = true) : o.owns k = true := by
  obtain ⟨start, num, htype, -, rfl⟩ := arrayLength_ok h
  cases hindex : k.index with
  | none =>
    rw [Object.owns_of_no_index hindex] at howns ⊢
    exact howns
  | some i =>
    rw [Object.owns_element (o.setElements_type _) hindex] at howns
    rw [Object.owns_element htype hindex]
    exact resizedElements_getElem? howns

/-- The lookup comes to the white-out of a deleted property. -/
theorem Object.Deleted.looked {memory : Memory} {prop : Property} {found : Local}
    (hdeleted : o.Deleted key prop) (hlooked : Looked memory key o found o') :
    found = .whiteout ∧ o' = o := by
  obtain ⟨hkey, howns, hlookup, hwhite⟩ := hdeleted
  have hnone := find_none_of_whiteout hlookup hwhite
  cases hlooked with
  | grown start i stale htype hindex hle hexpand =>
    simp only [Object.isElement, htype, hindex] at hkey
    cases hkey
  | refused start i htype hindex hle hexpand =>
    simp only [Object.isElement, htype, hindex] at hkey
    cases hkey
  | element start i htype hindex hlt =>
    simp only [Object.isElement, htype, hindex] at hkey
    cases hkey
  | character value i c htype hindex hc =>
    have hlt := (List.getElem?_eq_some_iff.mp hc).1
    simp only [Object.owns, htype, hindex, decide_eq_true hlt, Bool.true_or] at howns
    cases howns
  | entry prop' _ hkey' hfind =>
    rw [hnone] at hfind
    cases hfind
  | shared prop' hkey' hfind =>
    rw [hnone] at hfind
    cases hfind
  | failed prop' e _ hkey' hfind =>
    rw [hnone] at hfind
    cases hfind
  | whiteout prop' hkey' hlookup' => exact ⟨rfl, rfl⟩
  | absent hkey' hnone' =>
    rw [hnone'] at hlookup
    cases hlookup

/-- The lookup of a deleted property goes on to the prototypes. -/
theorem Object.Deleted.query {memory : Memory} {prop : Property} (h : o.Deleted key prop) :
    objectPropertyQuery memory .set key false o protos =
      ⟨(prototypeQuery memory .set key protos).1, true, o,
        (prototypeQuery memory .set key protos).2⟩ := by
  obtain ⟨hfound, hobject⟩ := h.looked (looked_ownQuery memory key o)
  have hlocal : ownQuery memory .set key o = (.whiteout, o) := Prod.ext hfound hobject
  simp only [objectPropertyQuery, hlocal, Bool.false_eq_true, if_false]

/-- An assignment to a deleted property that the prototypes let be added. -/
theorem valuePropertySet_deleted {prop : Property} (hdeleted : o.Deleted key prop)
    (hadd : LetsAdd env o key setval protos) :
    ∃ protos', valuePropertySet env o protos key setval =
      (.ok, o.setProperty key.name (revived prop setval), protos') := by
  have hq := @Object.Deleted.query _ _ protos env.memory _ hdeleted
  obtain ⟨-, -, hlookup, -⟩ := hdeleted
  refine ⟨(prototypeQuery env.memory .set key protos).2, ?_⟩
  unfold LetsAdd at hadd
  have haddProperty : ∀ result, addProperty env key setval
      ⟨result, true, o, (prototypeQuery env.memory .set key protos).2⟩ =
        (.ok, o.setProperty key.name (revived prop setval),
          (prototypeQuery env.memory .set key protos).2) := by
    intro result
    simp only [addProperty, hlookup]
  unfold valuePropertySet
  simp only [hq]
  cases hfound : (prototypeQuery env.memory .set key protos).1 with
  | error e =>
    rw [hfound] at hadd
    exact hadd.elim
  | declined => exact haddProperty _
  | found own target prop' =>
    rw [hfound] at hadd
    obtain ⟨hdata, hwritable, hdeclined⟩ := hadd
    obtain rfl := prototypeQuery_own hfound
    simp only [if_pos hdata, if_pos hwritable]
    unfold assignProperty
    split
    · rename_i h htype
      rw [hdeclined h htype]
      exact haddProperty _
    · exact haddProperty _

/-- What is own depends on the type of the object and on the names of its properties. -/
theorem owns_congr (htype : o'.type = o.type)
    (hfind : ∀ name, (o'.find name).isSome = (o.find name).isSome) (k : PropertyKey) :
    o'.owns k = o.owns k := by
  unfold Object.owns
  rw [htype, hfind]

/-- A property of the hash is own. -/
theorem setProperty_owns_self {prop : Property} (hkey : o.isElement key = false)
    (hlive : prop.type ≠ .whiteout) : (o.setProperty key.name prop).owns key = true := by
  have hfind := o.setProperty_find_self key.name prop
  rw [if_neg hlive] at hfind
  unfold Object.isElement at hkey
  unfold Object.owns
  rw [hfind, Object.setProperty_type]
  split at hkey
  · cases hkey
  · split
    · exact absurd ‹key.index = some _› (by simp_all)
    · simp
    · rfl

/-- An element of an array that is assigned is own. -/
theorem setElements_owns_set {start : List (Option Value)} {i : ℕ} {v : Value}
    (hindex : key.index = some i) (hlt : i < start.length) :
    (o.setElements (start.set i (some v))).owns key = true := by
  rw [Object.owns_element (o.setElements_type _) hindex]
  simp [List.getElem?_set_self hlt]

/-- The routes around the test make a property own. -/
theorem Extends.grows (h : Extends env o protos key setval) :
    (valuePropertySet env o protos key setval).1 = .ok ∧
      ∃ k, (valuePropertySet env o protos key setval).2.1.owns k = true ∧ o.owns k = false := by
  cases h with
  | hole start i htype hindex hhole =>
    have hlt := (List.getElem?_eq_some_iff.mp hhole).1
    rw [valuePropertySet_element htype hindex hlt]
    refine ⟨rfl, key, setElements_owns_set hindex hlt, ?_⟩
    rw [Object.owns_element htype hindex, hhole]
    rfl
  | grown hgrows =>
    obtain ⟨start, i, stale, htype, hindex, hle, hexpand⟩ := hgrows
    rw [valuePropertySet_grown htype hindex hle hexpand]
    refine ⟨rfl, key, setElements_owns_set hindex ?_, ?_⟩
    · simp only [grownElements, List.length_append, List.length_replicate, List.length_singleton]
      omega
    · rw [Object.owns_element htype hindex, List.getElem?_eq_none hle]
      rfl
  | deleted prop hdeleted hadd =>
    obtain ⟨protos', hset⟩ := valuePropertySet_deleted hdeleted hadd
    rw [hset]
    exact ⟨rfl, key, setProperty_owns_self hdeleted.1 (by rintro ⟨⟩), hdeleted.2.1⟩
  | handled h o' protos' hhandled hadds =>
    rw [hhandled.set]
    exact ⟨rfl, hadds⟩

/-- An assignment that takes none of the routes makes no property own. -/
theorem Assigned.owns {result : SetResult} (h : Assigned env o protos key setval result o')
    (hextensible : o.extensible = false) (hroutes : ¬Extends env o protos key setval) :
    (∃ e, result = .error e) ∨ ∀ k, o'.owns k = true → o.owns k = true := by
  cases h with
  | error e _ hsame => exact Or.inl ⟨e, rfl⟩
  | setter f _ hsame => exact Or.inr fun k howns => (hsame.owns k).symm.trans howns
  | element start i htype hindex hlt =>
    refine Or.inr fun k howns => ?_
    cases hk : k.index with
    | none =>
      rw [Object.owns_of_no_index hk] at howns ⊢
      exact howns
    | some j =>
      rw [Object.owns_element (o.setElements_type _) hk] at howns
      rw [Object.owns_element htype hk]
      by_cases hj : i = j
      · subst hj
        have hhole : start[i]? ≠ some none := fun hhole =>
          hroutes (.hole start i htype hindex hhole)
        rw [List.getElem?_eq_getElem hlt] at hhole ⊢
        rcases hv : start[i] with - | v
        · rw [hv] at hhole
          exact absurd rfl hhole
        · rfl
      · rw [List.getElem?_set_ne hj] at howns
        exact howns
  | grown start i stale htype hindex hle hexpand =>
    exact absurd (.grown ⟨start, i, stale, htype, hindex, hle, hexpand⟩) hroutes
  | entry prop o₁ hkey hfind htype hdata hwritable hsame hfound hentry =>
    refine Or.inr fun k howns => ?_
    have hcongr := @owns_congr o (o₁.setProperty key.name
      { prop with value := some setval }) hsame.type (fun name => ?_) k
    · exact hcongr.symm.trans howns
    · by_cases hname : name = key.name
      · rw [hname, Object.setProperty_find_self, hfind, if_neg]
        · rfl
        · rw [htype]
          nofun
      · rw [Object.setProperty_find_of_ne _ _ hname, hsame.find]
  | revived prop hdeleted hadd => exact absurd (.deleted prop hdeleted hadd) hroutes
  | inserted hkey howns hnone hyes =>
    rw [hextensible] at hyes
    cases hyes
  | handled h _ protos' hhandled =>
    right
    cases h with
    | arrayLength =>
      have hsame := hhandled.same
      obtain ⟨own, target, prop, -, -, -, -, houtcome⟩ := hhandled
      intro k howns
      rw [← hsame.owns k]
      exact arrayLength_owns houtcome.symm k howns
    | other h =>
      intro k howns
      by_contra hnot
      exact hroutes (.handled h o' protos' hhandled ⟨k, howns, by simpa using hnot⟩)
  | handlerError h e _ protos' hhandled => exact Or.inl ⟨e, rfl⟩

/-- An assignment to an object that is not extensible makes no property own if and only if it
takes none of the routes. -/
theorem does_not_grow_iff (env : Env) (o : Object) (protos : List Object) (key : PropertyKey)
    (setval : Value) :
    DoesNotGrow env o protos key setval ↔
      (o.extensible = false → ¬Extends env o protos key setval) := by
  refine ⟨fun hgrow hextensible hextends => ?_, fun hroutes hextensible => ?_⟩
  · obtain ⟨hok, k, howns, hnot⟩ := hextends.grows
    rcases hgrow hextensible with ⟨e, herror⟩ | hkeeps
    · rw [hok] at herror
      cases herror
    · have hown := hkeeps k howns
      rw [hnot] at hown
      cases hown
  · exact (assigned_valuePropertySet env o protos key setval).owns hextensible
      (hroutes hextensible)

/-- `a[0] = 1` for an array `a = []` that is not extensible. -/
theorem not_does_not_grow :
    ¬∀ (env : Env) (o : Object) (protos : List Object) (key : PropertyKey) (setval : Value),
      DoesNotGrow env o protos key setval := by
  intro h
  have hroutes := (does_not_grow_iff ample (plain (.array []) false fun _ => nofun) []
    ⟨[48], some 0⟩ (.number (.finite 1))).mp (h _ _ _ _ _) rfl
  exact hroutes (.grown ⟨[], 0, none, rfl, rfl, Nat.le_refl 0, rfl⟩)

end Njs.Objects
