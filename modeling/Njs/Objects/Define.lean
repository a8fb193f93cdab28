import Njs.Objects.Assignment

/-!
# Defining properties

`Object.defineProperty()` reads a descriptor and merges it into the property that is there.
The getters of a descriptor are taken to leave the objects as they are.
-/

namespace Njs.Objects

/-- What reading a descriptor uses of the engine. -/
structure Reading where
  /-- `njs_function_apply` of a getter. -/
  apply : ℕ → Except Error Value
  /-- Whether `njs_is_true` holds of the value that a deletion leaves. -/
  invalidIsTrue : Bool

variable (env : Env) (reading : Reading)

/-- The value is one of the two zeros. -/
def isZero (v : Option Value) : Bool := v = some (.number (.finite 0)) ∨ v = some .negativeZero

/-- `njs_values_strict_equal`. -/
def strictEqual (v w : Option Value) : Bool :=
  v = w ∧ v ≠ some (.number .nan) ∨ isZero v ∧ isZero w

/-- What `njs_object_property` does with the property that it found. -/
def readProperty (prop : Property) : Except Error (Option Value) :=
  if prop.isData then .ok prop.value
  else
    match prop.getter with
    | some (.function f) => (reading.apply f).map some
    | _ => .ok (some .undefined)

/-- `njs_object_property` of a descriptor and its prototypes. `NJS_DECLINED` is `none`. -/
def objectProperty (name : Name) : List Object → Except Error (Option (Option Value))
  | [] => .ok none
  | o :: protos =>
    match o.hash.lookup name, o.sharedHash.lookup name with
    | some prop, _ => (readProperty reading prop).map some
    | none, some prop => (readProperty reading prop).map some
    | none, none => objectProperty name protos

/-- A getter or a setter in a descriptor. -/
def accessorField (message : String) (field : Option (Option Value)) :
    Except Error (Option Value) :=
  match field with
  | none => .ok none
  | some v =>
    if isFunctionOrUndefined v then .ok v else .error (.exception (.typeError message []))

/-- An attribute in a descriptor. -/
def attributeField (field : Option (Option Value)) : Attribute :=
  match field with
  | none => .unset
  | some v => if (v.map Value.isTrue).getD reading.invalidIsTrue then .yes else .no

/-- `njs_descriptor_prop`. -/
def descriptorProp (desc : List Object) (prop : Property) : Except Error Property := do
  let get ← objectProperty reading "get".toUTF8.toList desc
  let getter ← accessorField "Getter must be a function" get
  let set ← objectProperty reading "set".toUTF8.toList desc
  let setter ← accessorField "Setter must be a function" set
  let value ← objectProperty reading "value".toUTF8.toList desc
  let writable ← objectProperty reading "writable".toUTF8.toList desc
  let enumerable ← objectProperty reading "enumerable".toUTF8.toList desc
  let configurable ← objectProperty reading "configurable".toUTF8.toList desc
  if (get.isSome ∨ set.isSome) ∧ (value.isSome ∨ writable.isSome) then
    .error (.exception (.typeError
      "Cannot both specify accessors and a value or writable attribute" []))
  else
    .ok { prop with
      getter := getter
      setter := setter
      value := value.getD prop.value
      writable := attributeField reading writable
      enumerable := attributeField reading enumerable
      configurable := attributeField reading configurable }

/-- `njs_object_prop_define_t`, with what the definition is made from. -/
inductive Definition
  | descriptor (desc : List Object)
  | getter (f : Value)
  | setter (f : Value)

/-- The property that is defined. -/
def definedProperty (definition : Definition) : Except Error Property :=
  let prop := objectPropAlloc none .unset
  match definition with
  | .descriptor desc => descriptorProp reading desc prop
  | .getter f => .ok { prop with getter := some f, enumerable := .yes, configurable := .yes }
  | .setter f => .ok { prop with setter := some f, enumerable := .yes, configurable := .yes }

/-- An attribute that is not set is `false`. -/
def Attribute.orNo : Attribute → Attribute
  | unset => no
  | a => a

/-- `CompletePropertyDescriptor`. -/
def completed (prop : Property) : Property :=
  let prop :=
    if prop.isAccessor then
      { prop with
        getter := some (prop.getter.getD .undefined)
        setter := some (prop.setter.getD .undefined) }
    else
      { prop with
        writable := prop.writable.orNo
        value := some (prop.value.getD .undefined) }
  { prop with enumerable := prop.enumerable.orNo, configurable := prop.configurable.orNo }

/-- The field is in the descriptor, and its value is not the one that the property has. -/
def differs (field prev : Option Value) : Bool := field.isSome && !strictEqual field prev

/-- The type of the property is a handler. -/
def Property.isHandler (prop : Property) : Bool :=
  match prop.type with
  | .handler _ => true
  | _ => false

/-- The checks of `ValidateAndApplyPropertyDescriptor` on attributes. -/
def attributesRefused (prev prop : Property) : Bool :=
  !prev.configurable.holds &&
    (prop.configurable = .yes ∨ prop.enumerable ≠ .unset ∧ prev.enumerable ≠ prop.enumerable)

/-- The checks of `ValidateAndApplyPropertyDescriptor` on values and functions. -/
def fieldsRefused (prev prop : Property) : Bool :=
  if prop.isGeneric then false
  else if prev.isData ≠ prop.isData then !prev.configurable.holds
  else if prev.isData then
    !prev.configurable.holds && !prev.writable.holds &&
      (prop.writable = .yes || !prev.isHandler && differs prop.value prev.value)
  else
    !prev.configurable.holds &&
      (differs prop.getter prev.getter || differs prop.setter prev.setter)

/-- The property that changes its kind. -/
def converted (prev prop : Property) : Property :=
  if prop.isGeneric ∨ prev.isData = prop.isData then prev
  else if prev.isData then
    { prev with getter := some .undefined, setter := some .undefined, value := none,
                writable := .unset }
  else
    { prev with value := some .undefined, writable := .no, getter := none, setter := none }

/-- An attribute of the property, unless the descriptor sets it. -/
def Attribute.orElse (a prev : Attribute) : Attribute := if a = .unset then prev else a

/-- The attributes that the descriptor sets. -/
def withAttributes (prev prop : Property) : Property :=
  { prev with
    writable := prop.writable.orElse prev.writable
    enumerable := prop.enumerable.orElse prev.enumerable
    configurable := prop.configurable.orElse prev.configurable }

/-- The functions and the value that the descriptor sets. A handler gets the value instead of
the property. -/
def withFields (prev prop : Property) : Property :=
  { prev with
    getter := prop.getter.orElse fun _ => prev.getter
    setter := prop.setter.orElse fun _ => prev.setter
    value := if prev.isHandler then prev.value else prop.value.orElse fun _ => prev.value }

/-- The property at the pointer is written: a scratch property is forgotten. -/
def Object.writeProperty (o : Object) (name : Name) (target : Target) (prop : Property) : Object :=
  match target with
  | .entry => o.setProperty name prop
  | _ => o

/-- The outcome of a definition, and the objects afterwards. -/
abbrev Defined : Type := Except Error Unit × Object × List Object

/-- The end of `njs_object_prop_define`: the fields of the descriptor are set. -/
def applyFields (o : Object) (protos : List Object) (name : Name) (target : Target)
    (prev prop : Property) : Defined :=
  let prev := withFields (converted prev prop) prop
  let o := o.writeProperty name target prev
  match prev.type, prop.value with
  | .handler h, some v =>
    if prev.isData ∧ prev.writable.holds then
      match propHandler env h o protos v with
      | .error e o protos => (.error e, o, protos)
      | .ok o protos => (.ok (), o.writeProperty name target (withAttributes prev prop), protos)
      | .declined => (.ok (), o.writeProperty name target (withAttributes prev prop), protos)
    else (.ok (), o.writeProperty name target (withAttributes prev prop), protos)
  | _, _ => (.ok (), o.writeProperty name target (withAttributes prev prop), protos)

/-- The exception of `njs_object_prop_define`. -/
def cannotRedefine (key : PropertyKey) (target : Target) : Error :=
  .exception (.typeError "Cannot redefine property: \"%V\"" [queryKey key target])

/-- `njs_object_prop_define` for a property that is there. -/
def updateProperty (o : Object) (protos : List Object) (key : PropertyKey) (target : Target)
    (prev prop : Property) : Defined :=
  match target, prev.type with
  | .element i, .ref =>
    (.ok (), o.storeElement i (some (prop.value.getD .undefined)), protos)
  | _, .ref =>
    (.error (.internal "unexpected property type \"%s\" while defining property"
      [propTypeString prev.type]), o, protos)
  | _, .whiteout =>
    (.error (.internal "unexpected property type \"%s\" while defining property"
      [propTypeString prev.type]), o, protos)
  | _, _ =>
    if attributesRefused prev prop then (.error (cannotRedefine key target), o, protos)
    else if target = .shared then
      match propPrivateCopy env.memory o key.name prev with
      | (.error e, o) => (.error e, o, protos)
      | (_, o) =>
        if fieldsRefused prev prop then (.error (cannotRedefine key target), o, protos)
        else applyFields env o protos key.name .entry prev prop
    else if fieldsRefused prev prop then (.error (cannotRedefine key target), o, protos)
    else applyFields env o protos key.name target prev prop

/-- `njs_object_prop_define` for a property that is not there. -/
def newProperty (o : Object) (protos : List Object) (key : PropertyKey) (ownWhiteout : Bool)
    (prop : Property) : Defined :=
  if ownWhiteout then (.ok (), o.setProperty key.name (completed prop), protos)
  else if !env.memory.insert then (.error (.internal "lvlhsh insert failed" []), o, protos)
  else (.ok (), o.setProperty key.name (completed prop), protos)

/-- `njs_object_prop_define`. -/
def objectPropDefine (o : Object) (protos : List Object) (key : PropertyKey)
    (definition : Definition) : Defined :=
  let q := objectPropertyQuery env.memory .set key true o protos
  match q.result with
  | .error e => (.error e, q.object, q.protos)
  | result =>
    if !env.memory.property then (.error (.exception .memoryError), q.object, q.protos)
    else
      match definedProperty reading definition with
      | .error e => (.error e, q.object, q.protos)
      | .ok prop =>
        match result with
        | .found _ target prev => updateProperty env q.object q.protos key target prev prop
        | _ => newProperty env q.object q.protos key q.ownWhiteout prop

/-- `njs_object_define_property` of an object, with the key that the name is converted to.
A descriptor that is not an object is `none`. -/
def objectDefineProperty (o : Object) (protos : List Object) (name : Except Error PropertyKey)
    (desc : Option (List Object)) : Defined :=
  if !o.extensible then
    (.error (.exception (.typeError "object is not extensible" [])), o, protos)
  else
    match desc, name with
    | none, _ => (.error (.exception (.typeError "descriptor is not an object" [])), o, protos)
    | some _, .error e => (.error e, o, protos)
    | some desc, .ok key => objectPropDefine env reading o protos key (.descriptor desc)

end Njs.Objects

/-!
## Properties and descriptors of ECMAScript

`ToPropertyDescriptor`, `ValidateAndApplyPropertyDescriptor` and the definition of properties of
objects and arrays, as ECMAScript has them.
-/

namespace Njs.Objects

/-- A property of ECMAScript. -/
inductive OwnProperty
  | data (value : Value) (writable enumerable configurable : Bool)
  | accessor (get set : Value) (enumerable configurable : Bool)
  deriving DecidableEq

/-- `[[Enumerable]]`. -/
def OwnProperty.enumerable : OwnProperty → Bool
  | data _ _ enumerable _ | accessor _ _ enumerable _ => enumerable

/-- `[[Configurable]]`. -/
def OwnProperty.configurable : OwnProperty → Bool
  | data _ _ _ configurable | accessor _ _ _ configurable => configurable

/-- A property descriptor. A field that it lacks is `none`. -/
structure Descriptor where
  value : Option Value
  writable : Option Bool
  get : Option Value
  set : Option Value
  enumerable : Option Bool
  configurable : Option Bool
  get_callable : ∀ v, get = some v → isFunctionOrUndefined (some v) = true
  set_callable : ∀ v, set = some v → isFunctionOrUndefined (some v) = true
  kind : ¬((get.isSome ∨ set.isSome) ∧ (value.isSome ∨ writable.isSome))

/-- `IsAccessorDescriptor`. -/
def Descriptor.isAccessor (d : Descriptor) : Bool := d.get.isSome || d.set.isSome

/-- `IsDataDescriptor`. -/
def Descriptor.isData (d : Descriptor) : Bool := d.value.isSome || d.writable.isSome

/-- The property that a descriptor makes of none. -/
def Descriptor.complete (d : Descriptor) : OwnProperty :=
  if d.isAccessor then
    .accessor (d.get.getD .undefined) (d.set.getD .undefined) (d.enumerable.getD false)
      (d.configurable.getD false)
  else
    .data (d.value.getD .undefined) (d.writable.getD false) (d.enumerable.getD false)
      (d.configurable.getD false)

/-- A field of the descriptor, if it is there, has a value that the property may get. -/
def agrees (same : Value → Value → Bool) (field : Option Value) (v : Value) : Bool :=
  field.all fun w => same w v

/-- The steps of `ValidateAndApplyPropertyDescriptor` that refuse a descriptor, but for what it
says of values. -/
def OwnProperty.allows (p : OwnProperty) (d : Descriptor) : Bool :=
  p.configurable ||
    (d.configurable ≠ some true && d.enumerable.all (· = p.enumerable) &&
      match p with
      | .data _ writable _ _ => !d.isAccessor && (writable || d.writable ≠ some true)
      | .accessor _ _ _ _ => !d.isData)

/-- The values that a descriptor gives are those that the property has, if it must keep them. -/
def OwnProperty.keeps (same : Value → Value → Bool) (p : OwnProperty) (d : Descriptor) : Bool :=
  p.configurable ||
    match p with
    | .data v writable _ _ => writable || agrees same d.value v
    | .accessor get set _ _ => agrees same d.get get && agrees same d.set set

/-- The property that a descriptor makes of another one. -/
def OwnProperty.apply (p : OwnProperty) (d : Descriptor) : OwnProperty :=
  match p with
  | .data v writable enumerable configurable =>
    if d.isAccessor then
      .accessor (d.get.getD .undefined) (d.set.getD .undefined) (d.enumerable.getD enumerable)
        (d.configurable.getD configurable)
    else
      .data (d.value.getD v) (d.writable.getD writable) (d.enumerable.getD enumerable)
        (d.configurable.getD configurable)
  | .accessor get set enumerable configurable =>
    if d.isData then
      .data (d.value.getD .undefined) (d.writable.getD false) (d.enumerable.getD enumerable)
        (d.configurable.getD configurable)
    else
      .accessor (d.get.getD get) (d.set.getD set) (d.enumerable.getD enumerable)
        (d.configurable.getD configurable)

/-- `SameValue`. -/
def sameValue (v w : Value) : Bool := v = w

/-- `ValidateAndApplyPropertyDescriptor`: the property afterwards, unless it is refused. -/
def validateAndApply (extensible : Bool) (current : Option OwnProperty) (d : Descriptor) :
    Option OwnProperty :=
  match current with
  | none => if extensible then some d.complete else none
  | some p => if p.allows d && p.keeps sameValue d then some (p.apply d) else none

/-- The properties of an object: of an array, the elements, whether the length may be written,
and the others. -/
inductive Properties
  | object (named : Name → Option OwnProperty)
  | array (elements : List (Option OwnProperty)) (lengthWritable : Bool)
    (named : Name → Option OwnProperty)

/-- The name of the length of an array. -/
def lengthName : Name := "length".toUTF8.toList

/-- The number is a length of an array. -/
def lengthOf : Number → Option ℕ
  | .finite q => if q.den = 1 ∧ 0 ≤ q.num ∧ q.num < 2 ^ 32 then some q.num.toNat else none
  | _ => none

/-- The elements of an array whose length is set, unless one cannot be deleted. -/
def setLength (elements : List (Option OwnProperty)) (n : ℕ) :
    Option (List (Option OwnProperty)) :=
  if (elements.drop n).all fun p => p.all OwnProperty.configurable then
    some (elements.take n ++ List.replicate (n - elements.length) none)
  else none

/-- `ArraySetLength` with a new length: the property `length` is to allow the descriptor, and to
keep the length if it may not be written. -/
def arraySetLength (elements : List (Option OwnProperty)) (lengthWritable : Bool)
    (named : Name → Option OwnProperty) (d : Descriptor) (n : ℕ) : Option Properties :=
  let length := OwnProperty.data (.number (.finite elements.length)) lengthWritable false false
  if length.allows d && (lengthWritable || n = elements.length) then
    (setLength elements n).map fun elements =>
      .array elements (d.writable.getD lengthWritable) named
  else none

/-- `[[DefineOwnProperty]]`: the properties afterwards, unless it throws. -/
def Properties.define (toNumber : Value → Except Error Number) (extensible : Bool)
    (properties : Properties) (key : PropertyKey) (d : Descriptor) : Option Properties :=
  match properties with
  | .object named =>
    (validateAndApply extensible (named key.name) d).map fun p =>
      .object (Function.update named key.name (some p))
  | .array elements lengthWritable named =>
    match key.index with
    | some i =>
      if i < elements.length then
        (validateAndApply extensible ((elements[i]?).getD none) d).map fun p =>
          .array (elements.set i (some p)) lengthWritable named
      else if lengthWritable then
        (validateAndApply extensible none d).map fun p =>
          .array (elements ++ List.replicate (i - elements.length) none ++ [some p])
            lengthWritable named
      else none
    | none =>
      if key.name = lengthName then
        match d.value with
        | none =>
          let length :=
            OwnProperty.data (.number (.finite elements.length)) lengthWritable false false
          if length.allows d then
            some (.array elements (d.writable.getD lengthWritable) named)
          else none
        | some v =>
          match toNumber v with
          | .error _ => none
          | .ok num =>
            match lengthOf num with
            | none => none
            | some n => arraySetLength elements lengthWritable named d n
      else
        (validateAndApply extensible (named key.name) d).map fun p =>
          .array elements lengthWritable (Function.update named key.name (some p))

/-! ## Reading a descriptor -/

/-- The value of a field of an object, which may be inherited. A property that was deleted is
none. -/
def readField (reading : Reading) (name : Name) : List Object → Except Error (Option Value)
  | [] => .ok none
  | o :: protos =>
    match o.find name with
    | none => readField reading name protos
    | some prop =>
      if prop.isData then .ok (some (prop.value.getD .undefined))
      else
        match prop.getter with
        | some (.function f) => (reading.apply f).map some
        | _ => .ok (some .undefined)

/-- `ToPropertyDescriptor`. It throws if there is none. -/
def toPropertyDescriptor (reading : Reading) (desc : List Object) : Option Descriptor :=
  match readField reading "enumerable".toUTF8.toList desc,
    readField reading "configurable".toUTF8.toList desc,
    readField reading "value".toUTF8.toList desc, readField reading "writable".toUTF8.toList desc,
    readField reading "get".toUTF8.toList desc, readField reading "set".toUTF8.toList desc with
  | .ok enumerable, .ok configurable, .ok value, .ok writable, .ok get, .ok set =>
    if h : (∀ v, get = some v → isFunctionOrUndefined (some v) = true) ∧
        (∀ v, set = some v → isFunctionOrUndefined (some v) = true) ∧
        ¬((get.isSome ∨ set.isSome) ∧
          (value.isSome ∨ (writable.map Value.isTrue).isSome)) then
      some ⟨value, writable.map Value.isTrue, get, set, enumerable.map Value.isTrue,
        configurable.map Value.isTrue, h.1, h.2.1, h.2.2⟩
    else none
  | _, _, _, _, _, _ => none

end Njs.Objects
