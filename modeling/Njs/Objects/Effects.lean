import Njs.Objects.Assignment

/-!
# What the lookup for an assignment does

`Looked` lists everything that the lookup for an assignment can find in an object, and what
it leaves of the object. The walk along the prototypes looks in one object after the other.
-/

namespace Njs.Objects

variable {env : Env} {memory : Memory} {query : Query} {key : PropertyKey} {o o' : Object}
  {protos protos' : List Object} {setval : Value}

/-- The lookup of the key for an assignment makes the array longer. -/
def Object.Grows (memory : Memory) (key : PropertyKey) (o : Object) : Prop :=
  ∃ start i stale, o.type = .array start ∧ key.index = some i ∧ start.length ≤ i ∧
    memory.expand start (i - start.length + 1) = some stale

/-- The lookup of the key for an assignment goes on to the prototype. -/
def Object.Passes (memory : Memory) (key : PropertyKey) (o : Object) : Prop :=
  (ownQuery memory .set key o).1 = .whiteout ∨ (ownQuery memory .set key o).1 = .absent

/-- The object has a place for an element with this index. -/
def Object.isElement (o : Object) (key : PropertyKey) : Bool :=
  match o.type, key.index with
  | .array _, some _ => true
  | _, _ => false

/-- What the lookup in one object for an assignment finds, and what it leaves. -/
inductive Looked (memory : Memory) (key : PropertyKey) (o : Object) : Local → Object → Prop
  /-- An array has, or gets, a place for the element. -/
  | grown (start : List (Option Value)) (i : ℕ) (stale : Option Value)
    (htype : o.type = .array start) (hindex : key.index = some i) (hle : start.length ≤ i)
    (hexpand : memory.expand start (i - start.length + 1) = some stale) :
    Looked memory key o (.found (.element i) (elementProperty .ref none))
      (o.setElements (grownElements start i stale))
  | refused (start : List (Option Value)) (i : ℕ) (htype : o.type = .array start)
    (hindex : key.index = some i) (hle : start.length ≤ i)
    (hexpand : memory.expand start (i - start.length + 1) = none) :
    Looked memory key o (.error (.exception .memoryError)) o
  | element (start : List (Option Value)) (i : ℕ) (htype : o.type = .array start)
    (hindex : key.index = some i) (hlt : i < start.length) :
    Looked memory key o (.found (.element i) (elementProperty .ref none)) o
  /-- A string has the character. -/
  | character (value : List Name) (i : ℕ) (c : Name) (htype : o.type = .string value)
    (hindex : key.index = some i) (hc : value[i]? = some c) :
    Looked memory key o (.found .character (characterProperty c)) o
  /-- The property is in a hash. -/
  | entry (prop : Property) (o' : Object) (hkey : o.isElement key = false)
    (hfind : o.find key.name = some prop) (hlive : prop.type ≠ .whiteout)
    (hentry : o'.hash.lookup key.name = some prop) (hsame : o.Same o') :
    Looked memory key o (.found .entry prop) o'
  | shared (prop : Property) (hkey : o.isElement key = false)
    (hfind : o.find key.name = some prop) (hlive : prop.type ≠ .whiteout)
    (hpost : prop.postponed = true) : Looked memory key o (.found .shared prop) o
  | failed (prop : Property) (e : Error) (o' : Object) (hkey : o.isElement key = false)
    (hfind : o.find key.name = some prop) (hsame : o.Same o') :
    Looked memory key o (.error e) o'
  /-- There is no such property. -/
  | whiteout (prop : Property) (hkey : o.isElement key = false)
    (hwhite : o.hash.lookup key.name = some prop) (htype : prop.type = .whiteout)
    (howns : o.owns key = false) : Looked memory key o .whiteout o
  | absent (hkey : o.isElement key = false) (hnone : o.hash.lookup key.name = none)
    (howns : o.owns key = false) : Looked memory key o .absent o

theorem Object.setElements_self {start : List (Option Value)} (h : o.type = .array start) :
    o.setElements start = o := by
  cases o
  cases h
  rfl

/-- The lookup behind the end of an array. -/
theorem ownQuery_grown {start : List (Option Value)} {i : ℕ} {stale : Option Value}
    (htype : o.type = .array start) (hindex : key.index = some i) (hle : start.length ≤ i)
    (hexpand : memory.expand start (i - start.length + 1) = some stale) :
    ownQuery memory .set key o = (.found (.element i) (elementProperty .ref none),
      o.setElements (grownElements start i stale)) := by
  simp only [ownQuery, htype, hindex, arrayPropertyQuery, if_pos hle, hexpand, ne_eq,
    not_true_eq_false, if_false]

/-- A property that is not in a hash is own if it is an element or a character. -/
theorem Object.owns_of_find {name : Name} (hkey : o.isElement key = false)
    (hchar : ∀ value i, o.type = .string value → key.index = some i → value.length ≤ i)
    (hname : key.name = name) : o.owns key = (o.find name).isSome := by
  subst hname
  unfold isElement at hkey
  unfold owns
  split at hkey
  · cases hkey
  · rename_i hne
    split
    · exact absurd ‹_› (hne _ _ ‹_›)
    · rename_i value i htype hindex
      have hle := hchar value i htype hindex
      simp [Nat.not_lt.mpr hle]
    · rfl

theorem find_none_of_whiteout {name : Name} {prop : Property}
    (hlookup : o.hash.lookup name = some prop) (htype : prop.type = .whiteout) :
    o.find name = none := by
  unfold Object.find
  rw [hlookup]
  exact if_pos htype

/-- The lookup in the hashes. -/
theorem looked_hash (hkey : o.isElement key = false)
    (hchar : ∀ value i, o.type = .string value → key.index = some i → value.length ≤ i) :
    Looked memory key o (hashQuery memory key.name o).1 (hashQuery memory key.name o).2 := by
  have howns := Object.owns_of_find hkey hchar rfl
  rcases hashQuery_cases memory key.name o with ⟨prop, hfind, hlive, h | h | h⟩ | h | h
  · obtain ⟨o', hquery, hentry, hsame⟩ := h
    rw [hquery]
    exact .entry prop o' hkey hfind hlive hentry hsame
  · obtain ⟨hquery, hpost⟩ := h
    rw [hquery]
    exact .shared prop hkey hfind hlive hpost
  · obtain ⟨e, o', hquery, hsame⟩ := h
    rw [hquery]
    exact .failed prop e o' hkey hfind hsame
  · obtain ⟨prop, hlookup, htype, hquery⟩ := h
    rw [hquery]
    rw [find_none_of_whiteout hlookup htype] at howns
    exact .whiteout prop hkey hlookup htype howns
  · obtain ⟨hlookup, hfind, hquery⟩ := h
    rw [hquery]
    rw [hfind] at howns
    exact .absent hkey hlookup howns

/-- The lookup in one object. -/
theorem looked_ownQuery (memory : Memory) (key : PropertyKey) (o : Object) :
    Looked memory key o (ownQuery memory .set key o).1 (ownQuery memory .set key o).2 := by
  rcases htype : o.type with - | start | value
  · have hquery : ownQuery memory .set key o = hashQuery memory key.name o := by
      simp only [ownQuery, htype]
    rw [hquery]
    refine looked_hash (by simp only [Object.isElement, htype]) fun value i h => ?_
    rw [htype] at h
    cases h
  · rcases hindex : key.index with - | i
    · have hquery : ownQuery memory .set key o = hashQuery memory key.name o := by
        simp only [ownQuery, htype, hindex]
      rw [hquery]
      refine looked_hash (by simp only [Object.isElement, htype, hindex]) fun value i h => ?_
      rw [htype] at h
      cases h
    · have hquery : ownQuery memory .set key o =
          ((arrayPropertyQuery memory .set start i).1,
            o.setElements (arrayPropertyQuery memory .set start i).2) := by
        simp only [ownQuery, htype, hindex]
      rw [hquery]
      unfold arrayPropertyQuery
      by_cases hle : start.length ≤ i
      · rcases hexpand : memory.expand start (i - start.length + 1) with - | stale
        · simp only [if_pos hle, ne_eq, not_true_eq_false, if_false]
          rw [Object.setElements_self htype]
          exact .refused start i htype hindex hle hexpand
        · simp only [if_pos hle, ne_eq, not_true_eq_false, if_false]
          exact .grown start i stale htype hindex hle hexpand
      · simp only [if_neg hle, reduceCtorEq, if_false]
        rw [Object.setElements_self htype]
        exact .element start i htype hindex (by omega)
  · rcases hindex : key.index with - | i
    · have hquery : ownQuery memory .set key o = hashQuery memory key.name o := by
        simp only [ownQuery, htype, hindex]
      rw [hquery]
      refine looked_hash (by simp only [Object.isElement, htype]) fun value i _ h => ?_
      rw [hindex] at h
      cases h
    · have hlength := o.string_length value htype
      rcases hc : value[i]? with - | c
      · have hquery : ownQuery memory .set key o = hashQuery memory key.name o := by
          simp only [ownQuery, htype, hindex, hc, ite_self]
        rw [hquery]
        refine looked_hash (by simp only [Object.isElement, htype]) fun value' i' h h' => ?_
        rw [htype] at h
        rw [hindex] at h'
        obtain rfl := ObjectType.string.inj h
        obtain rfl := Option.some.inj h'
        exact List.getElem?_eq_none_iff.mp hc
      · have hlt := (List.getElem?_eq_some_iff.mp hc).1
        have hquery : ownQuery memory .set key o =
            (.found .character (characterProperty c), o) := by
          simp only [ownQuery, htype, hindex, hc]
          exact if_pos (by omega)
        rw [hquery]
        exact .character value i c htype hindex hc

/-- A lookup makes an array longer or leaves the own properties as they are. -/
theorem Looked.grows_or_same {result : Local} (h : Looked memory key o result o') :
    (o.Grows memory key ∧ ¬o.Same o') ∨
      (¬o.Grows memory key ∧ o.Same o') := by
  have hhash : o.isElement key = false → ¬o.Grows memory key := by
    rintro hkey ⟨start, i, stale, htype, hindex, -⟩
    simp only [Object.isElement, htype, hindex] at hkey
    cases hkey
  cases h with
  | grown start i stale htype hindex hle hexpand =>
    refine Or.inl ⟨⟨start, i, stale, htype, hindex, hle, hexpand⟩, fun hsame => ?_⟩
    have hstart := hsame.type
    rw [htype] at hstart
    have hlength := congrArg List.length (ObjectType.array.inj hstart)
    simp [grownElements] at hlength
  | refused start i htype hindex hle hexpand =>
    refine Or.inr ⟨?_, .refl o⟩
    rintro ⟨start', i', stale, htype', hindex', -, hexpand'⟩
    obtain rfl := ObjectType.array.inj (htype.symm.trans htype')
    obtain rfl := Option.some.inj (hindex.symm.trans hindex')
    rw [hexpand] at hexpand'
    cases hexpand'
  | element start i htype hindex hlt =>
    refine Or.inr ⟨?_, .refl o⟩
    rintro ⟨start', i', stale, htype', hindex', hle, -⟩
    obtain rfl := ObjectType.array.inj (htype.symm.trans htype')
    obtain rfl := Option.some.inj (hindex.symm.trans hindex')
    omega
  | character value i c htype hindex hc =>
    refine Or.inr ⟨?_, .refl o⟩
    rintro ⟨start', i', stale, htype', -⟩
    rw [htype] at htype'
    cases htype'
  | entry prop _ hkey hfind hlive hentry hsame => exact Or.inr ⟨hhash hkey, hsame⟩
  | shared prop hkey hfind hlive hpost => exact Or.inr ⟨hhash hkey, .refl o⟩
  | failed prop e _ hkey hfind hsame => exact Or.inr ⟨hhash hkey, hsame⟩
  | whiteout prop hkey hwhite htype howns => exact Or.inr ⟨hhash hkey, .refl o⟩
  | absent hkey hnone howns => exact Or.inr ⟨hhash hkey, .refl o⟩

/-! ## The prototypes -/

/-- On the walk along the prototypes an array is made longer. -/
def GrowsPrototype (memory : Memory) (key : PropertyKey) : List Object → Prop
  | [] => False
  | o :: protos => o.Grows memory key ∨ o.Passes memory key ∧ GrowsPrototype memory key protos

/-- The prototypes are left as they are if and only if no array is made longer. -/
theorem prototypeQuery_same_iff (memory : Memory) (key : PropertyKey) (protos : List Object) :
    List.Forall₂ Object.Same protos (prototypeQuery memory .set key protos).2 ↔
      ¬GrowsPrototype memory key protos := by
  induction protos with
  | nil => simp [prototypeQuery, GrowsPrototype]
  | cons o protos ih =>
    have hlooked := looked_ownQuery memory key o
    have hsplit := hlooked.grows_or_same
    unfold prototypeQuery GrowsPrototype Object.Passes
    rcases hown : ownQuery memory .set key o with ⟨result, o'⟩
    rw [hown] at hsplit
    have hrest : List.Forall₂ Object.Same protos protos :=
      List.forall₂_same.mpr fun p _ => .refl p
    cases result with
    | found target prop =>
      simp only [List.forall₂_cons, hrest, reduceCtorEq, or_self, false_and, or_false, and_true]
      tauto
    | declined =>
      simp only [List.forall₂_cons, hrest, reduceCtorEq, or_self, false_and, or_false, and_true]
      tauto
    | error e =>
      simp only [List.forall₂_cons, hrest, reduceCtorEq, or_self, false_and, or_false, and_true]
      tauto
    | whiteout =>
      simp only [List.forall₂_cons, ih, true_or, true_and]
      tauto
    | absent =>
      simp only [List.forall₂_cons, ih, or_true, true_and]
      tauto

end Njs.Objects
