import Njs.Objects.Effects

/-!
# Assignment and the other objects

An assignment that calls no handler leaves the prototypes of its receiver as they are,
unless the lookup comes to an array that is too short for the index: it makes the array
longer, although the value is then stored elsewhere.
-/

namespace Njs.Objects

variable {env : Env} {memory : Memory} {key : PropertyKey} {o : Object} {protos : List Object}
  {setval : Value} {q : QueryResult}

/-- The lookup for an assignment ends at a property with a handler. -/
def FindsHandler (env : Env) (o : Object) (protos : List Object) (key : PropertyKey) : Prop :=
  ∃ own target prop h, (objectPropertyQuery env.memory .set key false o protos).result =
    .found own target prop ∧ prop.type = .handler h

/-- An assignment that calls no handler leaves the prototypes as they are. -/
def LeavesOthers (env : Env) (o : Object) (protos : List Object) (key : PropertyKey)
    (setval : Value) : Prop :=
  ¬FindsHandler env o protos key →
    List.Forall₂ Object.Same protos (valuePropertySet env o protos key setval).2.2

/-- The lookup in the receiver decides whether there is one in the prototypes. -/
theorem objectPropertyQuery_protos (memory : Memory) (key : PropertyKey) (o : Object)
    (protos : List Object) :
    (o.Passes memory key ∧ (objectPropertyQuery memory .set key false o protos).protos =
      (prototypeQuery memory .set key protos).2 ∧
      (objectPropertyQuery memory .set key false o protos).result =
        (prototypeQuery memory .set key protos).1) ∨
    (¬o.Passes memory key ∧ (objectPropertyQuery memory .set key false o protos).protos =
      protos) := by
  unfold objectPropertyQuery Object.Passes
  rcases ownQuery memory .set key o with ⟨result, o'⟩
  cases result with
  | found target prop => exact Or.inr ⟨by simp, rfl⟩
  | declined => exact Or.inr ⟨by simp, rfl⟩
  | error e => exact Or.inr ⟨by simp, rfl⟩
  | whiteout => exact Or.inl ⟨Or.inl rfl, rfl, rfl⟩
  | absent => exact Or.inl ⟨Or.inr rfl, rfl, rfl⟩

theorem addProperty_protos : (addProperty env key setval q).2.2 = q.protos := by
  unfold addProperty
  split
  · rfl
  · split_ifs <;> rfl

theorem storeProperty_protos {own : Bool} {target : Target} {prop : Property} :
    (storeProperty env key setval q own target prop).2.2 = q.protos := by
  unfold storeProperty
  split_ifs
  · split <;> rfl
  · exact addProperty_protos

/-- What is changed after the lookup is the receiver. -/
theorem valuePropertySet_protos (h : ¬FindsHandler env o protos key) :
    (valuePropertySet env o protos key setval).2.2 =
      (objectPropertyQuery env.memory .set key false o protos).protos := by
  unfold FindsHandler at h
  unfold valuePropertySet
  simp only
  split
  · rfl
  · exact addProperty_protos
  · rename_i own target prop hfound
    split_ifs
    · unfold assignProperty
      split
      · exact absurd ⟨own, target, prop, _, hfound, ‹_›⟩ h
      · exact storeProperty_protos
    · rfl
    · split <;> rfl

/-- A walk that makes an array longer ends at its element. -/
theorem prototypeQuery_of_grows (h : GrowsPrototype memory key protos) :
    ∃ i, (prototypeQuery memory .set key protos).1 =
      .found false (.element i) (elementProperty .ref none) := by
  induction protos with
  | nil => exact h.elim
  | cons o protos ih =>
    unfold prototypeQuery
    rcases h with hgrows | ⟨hpasses, hrest⟩
    · obtain ⟨start, i, stale, htype, hindex, hle, hexpand⟩ := hgrows
      rw [ownQuery_grown htype hindex hle hexpand]
      exact ⟨i, rfl⟩
    · obtain ⟨i, hi⟩ := ih hrest
      unfold Object.Passes at hpasses
      rcases hown : ownQuery memory .set key o with ⟨result, o'⟩
      rw [hown] at hpasses
      rcases hpasses with rfl | rfl
      · exact ⟨i, hi⟩
      · exact ⟨i, hi⟩

/-- An assignment leaves the prototypes of its receiver as they are if and only if the walk
along them does not make an array longer. -/
theorem set_leaves_others_iff (env : Env) (o : Object) (protos : List Object)
    (key : PropertyKey) (setval : Value) :
    LeavesOthers env o protos key setval ↔
      ¬(o.Passes env.memory key ∧ GrowsPrototype env.memory key protos) := by
  unfold LeavesOthers
  rcases objectPropertyQuery_protos env.memory key o protos with
    ⟨hpasses, hprotos, hresult⟩ | ⟨hstops, hprotos⟩
  · constructor
    · rintro hleaves ⟨-, hgrows⟩
      have hnone : ¬FindsHandler env o protos key := by
        rintro ⟨own, target, prop, h, hfound, htype⟩
        obtain ⟨i, hi⟩ := prototypeQuery_of_grows hgrows
        rw [hresult, hi] at hfound
        injection hfound with _ _ hprop
        rw [← hprop] at htype
        cases htype
      have hsame := hleaves hnone
      rw [valuePropertySet_protos hnone, hprotos, prototypeQuery_same_iff] at hsame
      exact hsame hgrows
    · intro hgrows hnone
      rw [valuePropertySet_protos hnone, hprotos, prototypeQuery_same_iff]
      exact fun h => hgrows ⟨hpasses, h⟩
  · refine ⟨fun _ h => hstops h.1, fun _ hnone => ?_⟩
    rw [valuePropertySet_protos hnone, hprotos]
    exact List.forall₂_same.mpr fun p _ => .refl p

/-- A plain object or an array without other properties. -/
def plain (type : ObjectType) (extensible : Bool) (h : ∀ value, type ≠ .string value) : Object where
  type := type
  hash := ∅
  sharedHash := ∅
  extensible := extensible
  shared_live := by simp
  string_length value hvalue := absurd hvalue (h value)

theorem object_ne_string : ∀ value, ObjectType.object ≠ .string value :=
  nofun

/-- An engine that has all the memory that it is asked for. -/
def ample : Env where
  memory := { expand := fun _ _ => some none, property := true, insert := true, function := true }
  toNumber _ := .ok .nan
  handler _ _ _ _ := .declined
  getHandler _ _ _ := .ok .undefined

/-- `o[5] = 1` for an object `o` whose prototype is the array `[]` makes the array longer. -/
theorem not_set_leaves_others :
    ¬∀ (env : Env) (o : Object) (protos : List Object) (key : PropertyKey) (setval : Value),
      LeavesOthers env o protos key setval := by
  intro h
  refine (set_leaves_others_iff ample (plain .object true fun _ => nofun)
    [plain (.array []) true fun _ => nofun] ⟨[53], some 5⟩ (.number (.finite 1))).mp
    (h _ _ _ _ _) ⟨Or.inr rfl, Or.inl ⟨[], 5, none, rfl, rfl, Nat.zero_le 5, rfl⟩⟩

end Njs.Objects
