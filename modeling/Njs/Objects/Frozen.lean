import Njs.Objects.Define
import Njs.Objects.Extensible

/-!
# Frozen objects

Freezing marks the properties in the hash of an object and clears the flag that lets it have
new ones. It reaches neither the elements of an array nor the properties in the shared hash,
and a deleted property or an accessor that also has a value may be written afterwards.
-/

namespace Njs.Objects

variable {env : Env} {key : PropertyKey} {f o o' : Object} {protos protos' : List Object}
  {setval : Value}

/-- The property after `njs_object_freeze`. -/
def frozenProperty (prop : Property) : Property :=
  { prop with
    writable := if prop.isAccessor then prop.writable else .no
    configurable := .no }

/-- `njs_object_freeze` of an object. -/
def objectFreeze (o : Object) : Object :=
  { o with
    extensible := false
    hash := ⟨o.hash.entries.map (.map id fun _ => frozenProperty), o.hash.nodupKeys.map₂ _ _⟩ }

/-- An operation on an object. -/
inductive Op
  | set (key : PropertyKey) (setval : Value)
  | delete (key : PropertyKey)
  /-- `Object.defineProperty()`. -/
  | define (reading : Reading) (name : Except Error PropertyKey) (desc : Option (List Object))

/-- One step of a run: an operation, with what it finds in the engine and in the prototypes. -/
structure Step where
  env : Env
  protos : List Object
  op : Op

/-- The object after the step. A step that throws is one of the run. -/
def Step.apply (step : Step) (o : Object) : Object :=
  match step.op with
  | .set key setval => (valuePropertySet step.env o step.protos key setval).2.1
  | .delete key => (valuePropertyDelete step.env o step.protos key).2
  | .define reading name desc =>
    (objectDefineProperty step.env reading o step.protos name desc).2.1

/-- After every step of the run from `o` the object is as it was in `f`. -/
def StaysSame (f : Object) : Object → List Step → Prop
  | o, [] => f.Same o
  | o, step :: steps => f.Same o ∧ StaysSame f (step.apply o) steps

/-- The steps that change an object although it has been frozen, when it was `f`. -/
inductive Changes (f o : Object) (env : Env) (protos : List Object) : Op → Prop
  /-- An element of an array gets another value. -/
  | element (key : PropertyKey) (setval : Value) (start : List (Option Value)) (i : ℕ)
    (htype : o.type = .array start) (hindex : key.index = some i) (hlt : i < start.length)
    (hne : start[i]? ≠ some (some setval)) : Changes f o env protos (.set key setval)
  /-- An array becomes longer. -/
  | grown (key : PropertyKey) (setval : Value) (hgrows : o.Grows env.memory key) :
    Changes f o env protos (.set key setval)
  /-- A deleted property comes back. -/
  | revived (key : PropertyKey) (setval : Value) (prop : Property)
    (hdeleted : o.Deleted key prop) (hadd : LetsAdd env o key setval protos) :
    Changes f o env protos (.set key setval)
  /-- A property that is shared, or is an accessor and has a value, gets another value. -/
  | entry (key : PropertyKey) (setval : Value) (prop : Property)
    (hfound : (ownQuery env.memory .set key o).1 = .found .entry prop)
    (hopen : f.hash.lookup key.name = none ∨ prop.isAccessor = true)
    (htype : prop.type = .property) (hdata : prop.isData = true)
    (hwritable : prop.writable.holds = true) (hne : prop.value ≠ some setval) :
    Changes f o env protos (.set key setval)
  /-- An array gets another length. -/
  | length (key : PropertyKey) (setval : Value) (o' : Object) (protos' : List Object)
    (start : List (Option Value)) (num : Number)
    (hhandled : Handled env o protos key setval .arrayLength (.ok o' protos'))
    (htype : o.type = .array start) (hnum : valueToNumber env setval = .ok num)
    (hne : numberToLength num ≠ start.length) : Changes f o env protos (.set key setval)
  /-- Another handler changes the object. -/
  | handled (key : PropertyKey) (setval : Value) (h : ℕ) (o' : Object) (protos' : List Object)
    (hhandled : Handled env o protos key setval (.other h) (.ok o' protos') ∨
      ∃ e, Handled env o protos key setval (.other h) (.error e o' protos'))
    (hchanged : ¬f.Same o') : Changes f o env protos (.set key setval)
  /-- An element of an array is deleted. -/
  | deletedElement (key : PropertyKey) (start : List (Option Value)) (i : ℕ) (v : Value)
    (htype : o.type = .array start) (hindex : key.index = some i)
    (hv : start[i]? = some (some v)) : Changes f o env protos (.delete key)
  /-- A property that is shared is deleted. -/
  | deletedEntry (key : PropertyKey) (prop : Property)
    (hfound : (ownQuery env.memory .delete key o).1 = .found .entry prop)
    (hopen : f.hash.lookup key.name = none) (hconfigurable : prop.configurable.holds = true) :
    Changes f o env protos (.delete key)

/-- No step of the run from `o` changes what was frozen as `f`. -/
def Harmless (f : Object) : Object → List Step → Prop
  | _, [] => True
  | o, step :: steps =>
    ¬Changes f o step.env step.protos step.op ∧ Harmless f (step.apply o) steps

/-! ## What freezing does -/

theorem objectFreeze_lookup (o : Object) (name : Name) :
    (objectFreeze o).hash.lookup name = (o.hash.lookup name).map frozenProperty :=
  List.dlookup_map₂ name

/-- A property in the hash of a frozen object cannot be configured, nor written unless it is
an accessor. -/
theorem objectFreeze_entry {name : Name} {prop : Property}
    (h : (objectFreeze o).hash.lookup name = some prop) :
    prop.configurable = .no ∧ (prop.isAccessor = true ∨ prop.writable = .no) := by
  rw [objectFreeze_lookup] at h
  obtain ⟨entry, -, rfl⟩ := Option.map_eq_some_iff.mp h
  refine ⟨rfl, ?_⟩
  cases haccessor : entry.isAccessor with
  | true => exact Or.inl haccessor
  | false =>
    right
    simp only [frozenProperty, haccessor, Bool.false_eq_true, if_false]

/-- What is found in a frozen object is shared or is an entry that freezing has marked. -/
theorem frozen_entry {prop : Property} {name : Name} (hsame : (objectFreeze o).Same o')
    (hfind : o'.find name = some prop) :
    (objectFreeze o).hash.lookup name = none ∨
      prop.configurable = .no ∧ (prop.isAccessor = true ∨ prop.writable = .no) := by
  rw [hsame.find] at hfind
  unfold Object.find at hfind
  rcases hlookup : (objectFreeze o).hash.lookup name with - | entry
  · exact Or.inl rfl
  · right
    rw [hlookup] at hfind
    simp only at hfind
    split_ifs at hfind
    obtain rfl := Option.some.inj hfind
    exact objectFreeze_entry hlookup

/-! ## Assignments -/

theorem set_eq_self_iff {start : List (Option Value)} {i : ℕ} {v : Option Value}
    (hlt : i < start.length) : start.set i v = start ↔ start[i]? = some v := by
  constructor
  · intro h
    rw [← h]
    exact List.getElem?_set_self hlt
  · intro h
    apply List.ext_getElem?
    intro j
    by_cases hj : i = j
    · subst hj
      rw [List.getElem?_set_self hlt, h]
    · exact List.getElem?_set_ne hj

/-- A value that a property already has. -/
theorem setProperty_value_same {prop : Property} {name : Name} (hfind : o.find name = some prop)
    (hlive : prop.type ≠ .whiteout) (hsame : o.Same o')
    (hentry : o'.hash.lookup name = some prop) : o.Same (o'.setProperty name prop) := by
  refine hsame.trans (Object.setProperty_same ((hsame.find name).trans hfind) hlive ?_)
  intro entry hlookup
  rw [hentry] at hlookup
  exact (Option.some.inj hlookup).symm

/-- The handler of the length of an array that fails does nothing. -/
theorem arrayLength_error {e : Error} (h : arrayLength env o protos setval = .error e o' protos') :
    o' = o := by
  unfold arrayLength at h
  split at h
  · split at h
    · exact (HandlerResult.error.inj h).2.1.symm
    · simp only at h
      split_ifs at h
      · exact (HandlerResult.error.inj h).2.1.symm
      · exact (HandlerResult.error.inj h).2.1.symm
  · cases h

theorem resizedElements_eq_iff {start : List (Option Value)} {length : ℕ} :
    resizedElements start length = start ↔ length = start.length := by
  constructor
  · intro h
    have hlength := congrArg List.length h
    simp only [resizedElements, List.length_append, List.length_take, List.length_replicate]
      at hlength
    omega
  · rintro rfl
    simp [resizedElements]

/-- The length of an array that is set leaves the array as it is if it is its length. -/
theorem Handled.length (h : Handled env o protos key setval .arrayLength (.ok o' protos')) :
    ∃ start num, o.type = .array start ∧ valueToNumber env setval = .ok num ∧
      (numberToLength num = start.length → o.Same o') ∧
      (numberToLength num ≠ start.length → o'.type ≠ o.type) := by
  have hsame := h.same
  obtain ⟨own, target, prop, -, -, -, -, houtcome⟩ := h
  obtain ⟨start, num, htype, hnum, rfl⟩ := arrayLength_ok houtcome.symm
  rw [hsame.type] at htype
  refine ⟨start, num, htype, hnum, fun h => ?_, fun hne h => hne ?_⟩
  · rw [resizedElements_eq_iff.mpr h, Object.setElements_self (hsame.type.trans htype)]
    exact hsame
  · rw [htype] at h
    exact resizedElements_eq_iff.mp (ObjectType.array.inj h)

/-- An assignment to a frozen object leaves it as it is or is one of those that change it. -/
theorem Assigned.same_or_changes {result : SetResult} {base : Object}
    (h : Assigned env o protos key setval result o') (hsame : (objectFreeze base).Same o) :
    (objectFreeze base).Same o' ∨ Changes (objectFreeze base) o env protos (.set key setval) := by
  cases h with
  | error e _ h => exact Or.inl (hsame.trans h)
  | setter f _ h => exact Or.inl (hsame.trans h)
  | element start i htype hindex hlt =>
    by_cases hv : start[i]? = some (some setval)
    · rw [(set_eq_self_iff hlt).mpr hv, Object.setElements_self htype]
      exact Or.inl hsame
    · exact Or.inr (.element key setval start i htype hindex hlt hv)
  | grown start i stale htype hindex hle hexpand =>
    exact Or.inr (.grown key setval ⟨start, i, stale, htype, hindex, hle, hexpand⟩)
  | entry prop o₁ hkey hfind htype hdata hwritable hkept hfound hentry =>
    by_cases hv : prop.value = some setval
    · left
      have hprop : ({ prop with value := some setval } : Property) = prop := by rw [← hv]
      rw [hprop]
      refine hsame.trans (setProperty_value_same hfind ?_ hkept hentry)
      rw [htype]
      nofun
    · right
      refine .entry key setval prop (by rw [hfound]) ?_ htype hdata hwritable hv
      rcases frozen_entry hsame hfind with hnone | ⟨-, haccessor | hno⟩
      · exact Or.inl hnone
      · exact Or.inr haccessor
      · rw [hno] at hwritable
        cases hwritable
  | revived prop hdeleted hadd => exact Or.inr (.revived key setval prop hdeleted hadd)
  | inserted hkey howns hnone hextensible =>
    rw [hsame.extensible] at hextensible
    cases hextensible
  | handled h _ protos' hhandled =>
    cases h with
    | other h =>
      by_cases hkept : (objectFreeze base).Same o'
      · exact Or.inl hkept
      · exact Or.inr (.handled key setval h o' protos' (Or.inl hhandled) hkept)
    | arrayLength =>
      obtain ⟨start, num, htype, hnum, hkept, -⟩ := hhandled.length
      by_cases hlength : numberToLength num = start.length
      · exact Or.inl (hsame.trans (hkept hlength))
      · exact Or.inr (.length key setval o' protos' start num hhandled htype hnum hlength)
  | handlerError h e _ protos' hhandled =>
    cases h with
    | other h =>
      by_cases hkept : (objectFreeze base).Same o'
      · exact Or.inl hkept
      · exact Or.inr (.handled key setval h o' protos' (Or.inr ⟨e, hhandled⟩) hkept)
    | arrayLength =>
      have hkept := hhandled.same
      obtain ⟨own, target, prop, -, -, -, -, houtcome⟩ := hhandled
      rw [arrayLength_error houtcome.symm]
      exact Or.inl (hsame.trans hkept)

/-- What is found under a name when two objects are the same. -/
theorem not_same_of_find {name : Name} (hsame : f.Same o) (hne : o'.find name ≠ o.find name) :
    ¬f.Same o' := by
  intro h
  exact hne ((h.find name).trans (hsame.find name).symm)

theorem not_same_of_type (hsame : f.Same o) (hne : o'.type ≠ o.type) : ¬f.Same o' := by
  intro h
  exact hne (h.type.trans hsame.type.symm)

/-- An assignment that changes a frozen object. -/
theorem Changes.set_not_same (h : Changes f o env protos (.set key setval)) (hsame : f.Same o) :
    ¬f.Same (valuePropertySet env o protos key setval).2.1 := by
  cases h with
  | element _ _ start i htype hindex hlt hne =>
    rw [valuePropertySet_element htype hindex hlt]
    refine not_same_of_type hsame fun h => hne ((set_eq_self_iff hlt).mp ?_)
    rw [htype] at h
    exact ObjectType.array.inj h
  | grown _ _ hgrows =>
    obtain ⟨start, i, stale, htype, hindex, hle, hexpand⟩ := hgrows
    rw [valuePropertySet_grown htype hindex hle hexpand]
    refine not_same_of_type hsame fun h => ?_
    rw [htype] at h
    have hlength := congrArg List.length (ObjectType.array.inj h)
    simp [grownElements] at hlength
  | revived _ _ prop hdeleted hadd =>
    obtain ⟨protos', hset⟩ := valuePropertySet_deleted hdeleted hadd
    obtain ⟨-, -, hlookup, hwhite⟩ := hdeleted
    rw [hset]
    refine @not_same_of_find _ _ _ key.name hsame ?_
    rw [Object.setProperty_find_self, find_none_of_whiteout hlookup hwhite, if_neg]
    · rintro ⟨⟩
    · rintro ⟨⟩
  | entry _ _ prop hfound hopen htype hdata hwritable hne =>
    obtain ⟨hfind, -⟩ := ownQuery_entry hfound
    have hlocal : ownQuery env.memory .set key o =
        (.found .entry prop, (ownQuery env.memory .set key o).2) := Prod.ext hfound rfl
    rw [valuePropertySet_entry hlocal htype hdata hwritable]
    refine @not_same_of_find _ _ _ key.name hsame ?_
    rw [Object.setProperty_find_self, hfind, if_neg]
    · intro h
      exact hne (congrArg Property.value (Option.some.inj h)).symm
    · rw [htype]
      rintro ⟨⟩
  | length _ _ o' protos' start num hhandled htype hnum hne =>
    rw [hhandled.set]
    obtain ⟨start', num', htype', hnum', -, hchanged⟩ := hhandled.length
    obtain rfl := ObjectType.array.inj (htype.symm.trans htype')
    obtain rfl := Except.ok.inj (hnum.symm.trans hnum')
    exact not_same_of_type hsame (hchanged hne)
  | handled _ _ h o' protos' hhandled hchanged =>
    rcases hhandled with hhandled | ⟨e, hhandled⟩
    · rw [hhandled.set]
      exact hchanged
    · rw [hhandled.set_error]
      exact hchanged

/-- An assignment to a frozen object leaves it as it is if and only if it is not one of those
that change it. -/
theorem set_same_iff {base : Object} (hsame : (objectFreeze base).Same o) :
    (objectFreeze base).Same (valuePropertySet env o protos key setval).2.1 ↔
      ¬Changes (objectFreeze base) o env protos (.set key setval) := by
  constructor
  · intro h hchanges
    exact hchanges.set_not_same hsame h
  · intro hharmless
    exact ((assigned_valuePropertySet env o protos key setval).same_or_changes hsame).resolve_right
      hharmless

/-! ## Deletions -/

/-- A deletion from a frozen object leaves it as it is or is one of those that change it. -/
theorem Removed.same_or_changes {base : Object} (h : Removed env o key o')
    (hsame : (objectFreeze base).Same o) :
    (objectFreeze base).Same o' ∨ Changes (objectFreeze base) o env protos (.delete key) := by
  cases h with
  | same _ h => exact Or.inl (hsame.trans h)
  | element start i htype hindex hlt =>
    rcases hv : start[i]? with - | v
    · exact absurd hlt (by rw [List.getElem?_eq_none_iff] at hv; omega)
    · cases v with
      | none =>
        rw [(set_eq_self_iff hlt).mpr hv, Object.setElements_self htype]
        exact Or.inl hsame
      | some v => exact Or.inr (.deletedElement key start i v htype hindex hv)
  | entry prop o₁ hfound hentry hfind hkept hconfigurable =>
    right
    rcases frozen_entry hsame hfind with hnone | ⟨hno, -⟩
    · exact .deletedEntry key prop (by rw [hfound]) hnone hconfigurable
    · rw [hno] at hconfigurable
      cases hconfigurable

/-- A deletion that changes a frozen object. -/
theorem Changes.delete_not_same (h : Changes f o env protos (.delete key)) (hsame : f.Same o) :
    ¬f.Same (valuePropertyDelete env o protos key).2 := by
  cases h with
  | deletedElement _ start i v htype hindex hv =>
    have hlt := (List.getElem?_eq_some_iff.mp hv).1
    rw [valuePropertyDelete_element htype hindex hlt]
    refine not_same_of_type hsame fun h => ?_
    rw [htype] at h
    have hhole := (set_eq_self_iff hlt).mp (ObjectType.array.inj h)
    rw [hv] at hhole
    cases hhole
  | deletedEntry _ prop hfound hopen hconfigurable =>
    obtain ⟨hfind, hlive⟩ := ownQuery_entry hfound
    have hlocal : ownQuery env.memory .delete key o =
        (.found .entry prop, (ownQuery env.memory .delete key o).2) := Prod.ext hfound rfl
    rw [valuePropertyDelete_entry hlocal hlive hconfigurable]
    refine @not_same_of_find _ _ _ key.name hsame ?_
    rw [Object.setProperty_find_self, hfind, deleted, if_pos rfl]
    nofun

/-- A deletion from a frozen object leaves it as it is if and only if it is not one of those
that change it. -/
theorem delete_same_iff {base : Object} (hsame : (objectFreeze base).Same o) :
    (objectFreeze base).Same (valuePropertyDelete env o protos key).2 ↔
      ¬Changes (objectFreeze base) o env protos (.delete key) := by
  constructor
  · intro h hchanges
    exact hchanges.delete_not_same hsame h
  · intro hharmless
    exact ((removed_valuePropertyDelete env o protos key).same_or_changes hsame).resolve_right
      hharmless

/-! ## Runs -/

/-- One step. -/
theorem step_same_iff {base : Object} (step : Step) (hsame : (objectFreeze base).Same o) :
    (objectFreeze base).Same (step.apply o) ↔
      ¬Changes (objectFreeze base) o step.env step.protos step.op := by
  unfold Step.apply
  cases step.op with
  | set key setval => exact set_same_iff hsame
  | delete key => exact delete_same_iff hsame
  | define reading name desc =>
    have hextensible : o.extensible = false := hsame.extensible
    simp only [objectDefineProperty, hextensible, Bool.not_false, if_true]
    exact ⟨fun _ => nofun, fun _ => hsame⟩

theorem staysSame_iff {base : Object} (steps : List Step) (hsame : (objectFreeze base).Same o) :
    StaysSame (objectFreeze base) o steps ↔ Harmless (objectFreeze base) o steps := by
  induction steps generalizing o with
  | nil => exact ⟨fun _ => trivial, fun _ => hsame⟩
  | cons step steps ih =>
    unfold StaysSame Harmless
    rw [← step_same_iff step hsame]
    constructor
    · rintro ⟨-, hstays⟩
      have hnext : (objectFreeze base).Same (step.apply o) := by
        cases steps with
        | nil => exact hstays
        | cons => exact hstays.1
      exact ⟨hnext, (ih hnext).mp hstays⟩
    · rintro ⟨hnext, hharmless⟩
      exact ⟨hsame, (ih hnext).mpr hharmless⟩

/-- A frozen object stays as it is after every step of a run if and only if no step of the run
is one of those that change it. -/
theorem frozen_stays_iff (o : Object) (steps : List Step) :
    StaysSame (objectFreeze o) (objectFreeze o) steps ↔
      Harmless (objectFreeze o) (objectFreeze o) steps :=
  staysSame_iff steps (.refl _)

/-- `a[0] = 2` for the frozen array `a = [1]`. -/
theorem not_frozen_stays :
    ¬∀ (o : Object) (steps : List Step), StaysSame (objectFreeze o) (objectFreeze o) steps := by
  intro h
  have hharmless := (frozen_stays_iff (plain (.array [some (.number (.finite 1))]) true
    fun _ => nofun) [⟨ample, [], .set ⟨[48], some 0⟩ (.number (.finite 2))⟩]).mp (h _ _)
  exact hharmless.1 (.element _ _ _ 0 rfl rfl Nat.zero_lt_one (by decide))

end Njs.Objects
