import Mathlib.Data.List.AList
import Njs.Number
import Njs.Result

/-!
# Objects and their properties

An object keeps its own properties in a hash of its own and in one that it shares with
others and never changes; an array keeps its elements in its storage, and the characters of
a string object are read from the string. A property that is deleted stays in the hash as a
white-out.
-/

namespace Njs.Objects

/-- The bytes of a property name. -/
abbrev Name := List UInt8

/-- A value. Functions and objects are named by numbers. -/
inductive Value
  | undefined
  | null
  | boolean (b : Bool)
  | number (n : Number)
  /-- The number `-0`. -/
  | negativeZero
  | string (s : Name)
  | function (f : ℕ)
  | object (o : ℕ)
  deriving DecidableEq

/-- `njs_is_function`. -/
def Value.isFunction : Value → Bool
  | function _ => true
  | _ => false

/-- `njs_is_true`. -/
def Value.isTrue : Value → Bool
  | undefined => false
  | null => false
  | boolean b => b
  | number n => n ≠ .nan ∧ n ≠ .finite 0
  | negativeZero => false
  | string s => s ≠ []
  | function _ => true
  | object _ => true

/-- `njs_object_attribute_t`. -/
inductive Attribute
  | no
  | yes
  | unset
  deriving DecidableEq

/-- An attribute as a condition: an attribute that is not set counts. -/
def Attribute.holds : Attribute → Bool
  | no => false
  | yes => true
  | unset => true

/-- A function of the engine that reads and writes a property. -/
inductive PropHandler
  /-- `njs_array_length`. -/
  | arrayLength
  | other (h : ℕ)
  deriving DecidableEq

/-- `njs_object_prop_type_t`. -/
inductive PropertyType
  | property
  /-- A pointer to an element of an array. -/
  | ref
  | handler (h : PropHandler)
  | whiteout
  deriving DecidableEq

/-- `njs_object_prop_t`, where a value that is not valid is `none`. -/
structure Property where
  type : PropertyType
  value : Option Value
  getter : Option Value
  setter : Option Value
  writable : Attribute
  enumerable : Attribute
  configurable : Attribute
  deriving DecidableEq

/-- `njs_is_data_descriptor`. -/
def Property.isData (prop : Property) : Bool := prop.writable ≠ .unset ∨ prop.value.isSome

/-- `njs_is_function_or_undefined`. -/
def isFunctionOrUndefined : Option Value → Bool
  | some (.function _) => true
  | some .undefined => true
  | _ => false

/-- `njs_is_accessor_descriptor`. -/
def Property.isAccessor (prop : Property) : Bool :=
  isFunctionOrUndefined prop.getter || isFunctionOrUndefined prop.setter

/-- `njs_is_generic_descriptor`. -/
def Property.isGeneric (prop : Property) : Bool := !prop.isData && !prop.isAccessor

/-- `njs_object_prop_alloc`. -/
def objectPropAlloc (value : Option Value) (attributes : Attribute) : Property where
  type := .property
  value := value
  getter := none
  setter := none
  writable := attributes
  enumerable := attributes
  configurable := attributes

/-- The properties in a hash, by their names. -/
abbrev Hash : Type := AList fun _ : Name => Property

/-- The types of objects whose own properties are not in the hashes only. -/
inductive ObjectType
  | object
  /-- `NJS_ARRAY`, with its elements. A hole is `none`. -/
  | array (start : List (Option Value))
  /-- `NJS_OBJECT_STRING`, with the characters of its value. -/
  | string (value : List Name)
  deriving DecidableEq

/-- `NJS_STRING_MAX_LENGTH`. -/
def stringMaxLength : ℕ := 2 ^ 31 - 1

/-- `njs_object_t` without its prototype. Nothing is ever deleted from a shared hash. -/
structure Object where
  type : ObjectType
  hash : Hash
  sharedHash : Hash
  extensible : Bool
  shared_live : ∀ name prop, sharedHash.lookup name = some prop → prop.type ≠ .whiteout
  string_length : ∀ value, type = .string value → value.length ≤ stringMaxLength

/-- A property key: its name, and the index that `njs_value_to_index` finds in it if it is
neither `null`, `undefined` nor a boolean. -/
structure PropertyKey where
  name : Name
  index : Option ℕ
  deriving DecidableEq

/-- What a function returns instead of `NJS_OK`. -/
inductive Error
  | exception (e : Exception)
  /-- `njs_internal_error`. -/
  | internal (format : String) (args : List Name)
  deriving DecidableEq

/-- What the allocator does during a call. -/
structure Memory where
  /-- `njs_array_expand` of an array with these elements for so many more. If there is room,
  the last of them has a stale value. -/
  expand : List (Option Value) → ℕ → Option (Option Value)
  /-- Whether there is memory for a property. -/
  property : Bool
  /-- Whether there is memory for its place in a hash. -/
  insert : Bool
  /-- Whether there is memory for the copies of functions. -/
  function : Bool

/-- The property with this name in the hash, or in the hash that is shared. -/
def Object.find (o : Object) (name : Name) : Option Property :=
  match o.hash.lookup name with
  | some prop => if prop.type = .whiteout then none else some prop
  | none => o.sharedHash.lookup name

/-- The property is own: an element, a character, or a property in a hash. -/
def Object.owns (o : Object) (key : PropertyKey) : Bool :=
  match o.type, key.index with
  | .array start, some i => ((start[i]?).getD none).isSome
  | .string value, some i => i < value.length || (o.find key.name).isSome
  | _, _ => (o.find key.name).isSome

/-- The own properties, with their values and attributes, the elements and the length are
the same. Only copies of properties that are shared may have come to the hash. -/
structure Object.Same (o o' : Object) : Prop where
  type : o'.type = o.type
  find : ∀ name, o'.find name = o.find name
  entries : ∀ name prop, o.hash.lookup name = some prop → o'.hash.lookup name = some prop
  extensible : o'.extensible = o.extensible

theorem Object.Same.refl (o : Object) : o.Same o := ⟨rfl, fun _ => rfl, fun _ _ h => h, rfl⟩

theorem Object.Same.trans {o o' o'' : Object} (h : o.Same o') (h' : o'.Same o'') : o.Same o'' :=
  ⟨h'.type.trans h.type, fun name => (h'.find name).trans (h.find name),
    fun name prop hlookup => h'.entries name prop (h.entries name prop hlookup),
    h'.extensible.trans h.extensible⟩

theorem Object.Same.owns {o o' : Object} (h : o.Same o') (key : PropertyKey) :
    o'.owns key = o.owns key := by
  unfold Object.owns
  rw [h.type, h.find]

theorem Object.owns_element {o : Object} {key : PropertyKey} {start : List (Option Value)} {i : ℕ}
    (htype : o.type = .array start) (hindex : key.index = some i) :
    o.owns key = ((start[i]?).getD none).isSome := by
  unfold Object.owns
  rw [htype, hindex]

theorem Object.owns_of_no_index {o : Object} {key : PropertyKey} (hindex : key.index = none) :
    o.owns key = (o.find key.name).isSome := by
  unfold Object.owns
  rw [hindex]
  cases o.type <;> rfl

/-- The object with a property in its hash. -/
def Object.setProperty (o : Object) (name : Name) (prop : Property) : Object :=
  { o with hash := o.hash.insert name prop }

/-- The object with other elements. -/
def Object.setElements (o : Object) (start : List (Option Value)) : Object :=
  { o with
    type := .array start
    string_length := fun _ h => nomatch h }

@[simp] theorem Object.setProperty_type (o : Object) (name : Name) (prop : Property) :
    (o.setProperty name prop).type = o.type := rfl

@[simp] theorem Object.setElements_type (o : Object) (start : List (Option Value)) :
    (o.setElements start).type = .array start := rfl

@[simp] theorem Object.setElements_find (o : Object) (start : List (Option Value)) (name : Name) :
    (o.setElements start).find name = o.find name := rfl

theorem Object.setProperty_find_self (o : Object) (name : Name) (prop : Property) :
    (o.setProperty name prop).find name = if prop.type = .whiteout then none else some prop := by
  unfold find setProperty
  simp only [AList.lookup_insert]

theorem Object.setProperty_find_of_ne (o : Object) {name other : Name} (prop : Property)
    (h : other ≠ name) : (o.setProperty name prop).find other = o.find other := by
  unfold find setProperty
  simp only [AList.lookup_insert_ne h]

theorem Object.setProperty_lookup_of_ne (o : Object) {name other : Name} (prop : Property)
    (h : other ≠ name) : (o.setProperty name prop).hash.lookup other = o.hash.lookup other :=
  AList.lookup_insert_ne h

/-- The copy of a property that is shared leaves what is found as it is. -/
theorem Object.setProperty_same {o : Object} {name : Name} {prop : Property}
    (h : o.find name = some prop) (hlive : prop.type ≠ .whiteout)
    (hhash : ∀ entry, o.hash.lookup name = some entry → entry = prop) :
    o.Same (o.setProperty name prop) := by
  refine ⟨rfl, fun other => ?_, fun other entry hentry => ?_, rfl⟩
  · by_cases hname : other = name
    · rw [hname, Object.setProperty_find_self, if_neg hlive, h]
    · exact o.setProperty_find_of_ne prop hname
  · by_cases hname : other = name
    · subst hname
      rw [hhash entry hentry]
      exact AList.lookup_insert _
    · rw [o.setProperty_lookup_of_ne prop hname, hentry]

end Njs.Objects
