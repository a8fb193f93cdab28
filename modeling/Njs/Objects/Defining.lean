import Njs.Objects.Effects
import Njs.Objects.Merging

/-!
# What a definition reads and finds

A descriptor none of whose fields was deleted is read as ECMAScript reads it. `PlainObject` has
the objects and arrays whose properties have the form that assignments and definitions give them.
-/

namespace Njs.Objects

variable {env : Env} {reading : Reading} {name : Name} {desc : List Object} {d : Descriptor}
  {key : PropertyKey} {start : List (Option Value)} {i : ℕ}

/-! ## Descriptors -/

/-- The property has the value that it is read for: it was not deleted. -/
def Property.Intact (prop : Property) : Prop :=
  prop.type = .property ∧ (prop.isData = true → prop.value.isSome = true)

/-- The field of the descriptor, if it is there, was not deleted. -/
def FieldIntact (name : Name) : List Object → Prop
  | [] => True
  | o :: protos =>
    match o.hash.lookup name, o.sharedHash.lookup name with
    | some prop, _ => prop.Intact
    | none, some prop => prop.Intact
    | none, none => FieldIntact name protos

/-- No field of the descriptor was deleted. -/
structure Intact (desc : List Object) : Prop where
  get : FieldIntact "get".toUTF8.toList desc
  set : FieldIntact "set".toUTF8.toList desc
  value : FieldIntact "value".toUTF8.toList desc
  writable : FieldIntact "writable".toUTF8.toList desc
  enumerable : FieldIntact "enumerable".toUTF8.toList desc
  configurable : FieldIntact "configurable".toUTF8.toList desc

/-- A property that was not deleted is read as one of ECMAScript. -/
theorem readProperty_of_intact {prop : Property} (h : prop.Intact) :
    (readProperty reading prop).map some =
      Except.map (Option.map some)
        (if prop.isData then .ok (some (prop.value.getD .undefined))
        else
          match prop.getter with
          | some (.function f) => (reading.apply f).map some
          | _ => .ok (some .undefined)) := by
  unfold readProperty
  cases hdata : prop.isData with
  | true =>
    obtain ⟨v, hv⟩ := Option.isSome_iff_exists.mp (h.2 hdata)
    rw [hv]
    rfl
  | false =>
    rw [if_neg Bool.false_ne_true, if_neg Bool.false_ne_true]
    rcases prop.getter with _ | getter
    · rfl
    · cases getter with
      | function f =>
        dsimp only
        cases reading.apply f <;> rfl
      | _ => rfl

/-- A field that was not deleted is read as ECMAScript reads it. -/
theorem objectProperty_of_intact (h : FieldIntact name desc) :
    objectProperty reading name desc = (readField reading name desc).map (Option.map some) := by
  induction desc with
  | nil => rfl
  | cons o protos ih =>
    unfold FieldIntact at h
    unfold objectProperty readField Object.find
    cases hhash : o.hash.lookup name with
    | some prop =>
      rw [hhash] at h
      have hintact : prop.Intact := h
      have hlive : prop.type ≠ .whiteout := by
        rw [hintact.1]
        rintro ⟨⟩
      simp only [if_neg hlive]
      exact readProperty_of_intact hintact
    | none =>
      rw [hhash] at h
      cases hshared : o.sharedHash.lookup name with
      | some prop =>
        rw [hshared] at h
        exact readProperty_of_intact h
      | none =>
        rw [hshared] at h
        exact ih h

theorem accessorField_some (message : String) (field : Option Value) :
    accessorField message (field.map some) =
      if ∀ v, field = some v → isFunctionOrUndefined (some v) = true then .ok field
      else .error (.exception (.typeError message [])) := by
  cases field with
  | none => simp [accessorField]
  | some v => simp [accessorField]

theorem attributeField_some (field : Option Value) :
    attributeField reading (field.map some) = .ofField (field.map Value.isTrue) := by
  cases field <;> rfl

/-- A descriptor that was not deleted from is read as ECMAScript reads it. -/
theorem definedProperty_eq (reading : Reading) (h : Intact desc) :
    match toPropertyDescriptor reading desc with
    | some d => definedProperty reading (.descriptor desc) = .ok d.toProperty
    | none => ∃ e, definedProperty reading (.descriptor desc) = .error e := by
  unfold definedProperty descriptorProp toPropertyDescriptor
  simp only [objectProperty_of_intact h.get, objectProperty_of_intact h.set,
    objectProperty_of_intact h.value, objectProperty_of_intact h.writable,
    objectProperty_of_intact h.enumerable, objectProperty_of_intact h.configurable]
  cases readField reading "get".toUTF8.toList desc with
  | error e => simp [Except.map, bind, Except.bind]
  | ok get =>
    cases readField reading "set".toUTF8.toList desc with
    | error e =>
      simp only [Except.map, accessorField_some, bind, Except.bind]
      split_ifs <;> simp
    | ok set =>
      cases readField reading "value".toUTF8.toList desc with
      | error e =>
        simp only [Except.map, accessorField_some, bind, Except.bind]
        split_ifs <;> simp
      | ok value =>
        cases readField reading "writable".toUTF8.toList desc with
        | error e =>
          simp only [Except.map, accessorField_some, bind, Except.bind]
          split_ifs <;> simp
        | ok writable =>
          cases readField reading "enumerable".toUTF8.toList desc with
          | error e =>
            simp only [Except.map, accessorField_some, bind, Except.bind]
            split_ifs <;> simp
          | ok enumerable =>
            cases readField reading "configurable".toUTF8.toList desc with
            | error e =>
              simp only [Except.map, accessorField_some, bind, Except.bind]
              split_ifs <;> simp
            | ok configurable =>
              simp only [Except.map, accessorField_some, attributeField_some, bind, Except.bind,
                Option.isSome_map]
              by_cases hget : ∀ v, get = some v → isFunctionOrUndefined (some v) = true
              · by_cases hset : ∀ v, set = some v → isFunctionOrUndefined (some v) = true
                · by_cases hkind : (get.isSome ∨ set.isSome) ∧ (value.isSome ∨ writable.isSome)
                  · simp only [if_pos hget, if_pos hset, if_pos hkind]
                    rw [dif_neg fun h => h.2.2 hkind]
                    exact ⟨_, rfl⟩
                  · simp only [if_pos hget, if_pos hset, if_neg hkind]
                    rw [dif_pos ⟨hget, hset, hkind⟩]
                    cases value <;> rfl
                · simp only [if_pos hget, if_neg hset]
                  rw [dif_neg fun h => hset h.2.1]
                  exact ⟨_, rfl⟩
              · simp only [if_neg hget]
                rw [dif_neg fun h => hget h.1]
                exact ⟨_, rfl⟩

/-! ## Objects -/

/-- The property `length` of an array. -/
def lengthProperty (writable : Bool) : Property where
  type := .handler .arrayLength
  value := none
  getter := none
  setter := none
  writable := .ofBool writable
  enumerable := .no
  configurable := .no

/-- A plain object, or an array. Its hash has what assignments, definitions and deletions leave,
and it shares nothing but the length of an array. -/
structure PlainObject extends Object where
  not_string : ∀ value, type ≠ .string value
  kept : ∀ name prop, hash.lookup name = some prop → prop.type ≠ .whiteout →
    (∃ start, type = .array start) ∧ name = lengthName ∨ ∃ p, Kept prop p
  shared : ∀ name prop, sharedHash.lookup name = some prop →
    (∃ start, type = .array start) ∧ name = lengthName
  length : ∀ start, type = .array start →
    ∃ writable, toObject.find lengthName = some (lengthProperty writable)

/-- The length of the array may be written. -/
def Object.lengthWritable (o : Object) : Bool :=
  (o.find lengthName).any fun prop => prop.writable.holds

/-- The property with this name. -/
def Object.named (o : Object) (name : Name) : Option OwnProperty := (o.find name).map ownProperty

/-- The properties of the elements of an array. -/
def elementProperties (start : List (Option Value)) : List (Option OwnProperty) :=
  start.map (Option.map fun v => .data v true true true)

/-- The properties of an object. -/
def Object.properties (o : Object) : Properties :=
  match o.type with
  | .array start =>
    .array (elementProperties start) o.lengthWritable (Function.update o.named lengthName none)
  | _ => .object o.named

theorem Object.properties_array {o : Object} (htype : o.type = .array start) :
    o.properties = .array (elementProperties start) o.lengthWritable
      (Function.update o.named lengthName none) := by
  unfold properties
  rw [htype]

theorem Object.properties_setElements (o : Object) (start : List (Option Value)) :
    (o.setElements start).properties = .array (elementProperties start) o.lengthWritable
      (Function.update o.named lengthName none) := by
  rfl

theorem Object.storeElement_of_array {o : Object} (htype : o.type = .array start) (i : ℕ)
    (v : Option Value) : o.storeElement i v = o.setElements (start.set i v) := by
  unfold storeElement
  rw [htype]

/-- The object has the key in its hashes, but for the length of an array. -/
def PlainObject.Hashes (o : PlainObject) (key : PropertyKey) : Prop :=
  ∀ start, o.type = .array start → key.index = none ∧ key.name ≠ lengthName

theorem Object.named_setProperty (o : Object) {prop : Property} {p : OwnProperty}
    (h : Kept prop p) (name : Name) :
    (o.setProperty name prop).named = Function.update o.named name (some p) := by
  have hlive : prop.type ≠ .whiteout := by
    cases h <;> rintro ⟨⟩
  funext other
  unfold named
  by_cases hname : other = name
  · rw [hname, o.setProperty_find_self, if_neg hlive, Function.update_self, Option.map_some,
      h.ownProperty_eq]
  · rw [o.setProperty_find_of_ne prop hname, Function.update_of_ne hname]

end Njs.Objects
