import Njs.Objects.Query
import Njs.Strtod

/-!
# Reading, assigning and deleting properties

The functions stop where a function of the script is to be called, a getter or a setter:
the result says which one. What it does is not theirs.
-/

namespace Njs.Objects

/-- What a handler does in an assignment. One that is not made for the object returns
`NJS_DECLINED` and does nothing. -/
inductive HandlerResult
  | ok (o : Object) (protos : List Object)
  | declined
  | error (e : Error) (o : Object) (protos : List Object)

/-- What the functions use of the engine. -/
structure Env where
  memory : Memory
  /-- `njs_value_to_number` of a value that is not a number. -/
  toNumber : Value → Except Error Number
  /-- The handlers other than the one of the length of an array, in an assignment. -/
  handler : ℕ → Object → List Object → Value → HandlerResult
  /-- The handlers other than the one of the length of an array, in a read. -/
  getHandler : ℕ → Object → List Object → Except Error Value

variable (env : Env)

/-- `njs_value_to_number`. -/
def valueToNumber : Value → Except Error Number
  | .number n => .ok n
  | .negativeZero => .ok (.finite 0)
  | v => env.toNumber v

/-- The elements of an array whose length is set. -/
def resizedElements (start : List (Option Value)) (length : ℕ) : List (Option Value) :=
  start.take length ++ List.replicate (length - start.length) none

/-- `njs_array_length` in an assignment. -/
def arrayLength (o : Object) (protos : List Object) (setval : Value) : HandlerResult :=
  match o.type with
  | .array start =>
    match valueToNumber env setval with
    | .error e => .error e o protos
    | .ok num =>
      let length := numberToLength num
      if .finite length ≠ num then
        .error (.exception (.rangeError "Invalid array length")) o protos
      else if start.length < length ∧ env.memory.expand start (length - start.length) = none then
        .error (.exception .memoryError) o protos
      else .ok (o.setElements (resizedElements start length)) protos
  | _ => .declined

/-- `prop->value.data.u.prop_handler` in an assignment. -/
def propHandler (h : PropHandler) (o : Object) (protos : List Object) (setval : Value) :
    HandlerResult :=
  match h with
  | .arrayLength => arrayLength env o protos setval
  | .other h => env.handler h o protos setval

/-- The outcome of an assignment. -/
inductive SetResult
  | ok
  | error (e : Error)
  /-- `njs_function_call` of a setter. -/
  | setter (f : ℕ)
  deriving DecidableEq

/-- `njs_type_string` of an object. -/
def typeString : ObjectType → Name
  | .object => "object".toUTF8.toList
  | .array _ => "array".toUTF8.toList
  | .string _ => "object string".toUTF8.toList

/-- `njs_prop_type_string`. -/
def propTypeString : PropertyType → Name
  | .ref => "property_ref".toUTF8.toList
  | .handler _ => "property handler".toUTF8.toList
  | .whiteout => "whiteout".toUTF8.toList
  | .property => "property".toUTF8.toList

/-- `pq->lhq.key`. -/
def queryKey (key : PropertyKey) (target : Target) : Name :=
  match target, key.index with
  | .character, some i => decimal i
  | _, _ => key.name

/-- Assignment by way of a pointer to an element. -/
def Object.storeElement (o : Object) (i : ℕ) (v : Option Value) : Object :=
  match o.type with
  | .array start => o.setElements (start.set i v)
  | _ => o

/-- The deleted property that comes back. -/
def revived (prop : Property) (setval : Value) : Property :=
  { prop with type := .property, enumerable := .yes, configurable := .yes, writable := .yes,
              value := some setval }

/-- The end of `njs_value_property_set`: a property is added. -/
def addProperty (key : PropertyKey) (setval : Value) (q : QueryResult) :
    SetResult × Object × List Object :=
  match q.ownWhiteout, q.object.hash.lookup key.name with
  | true, some prop => (.ok, q.object.setProperty key.name (revived prop setval), q.protos)
  | _, _ =>
    if !q.object.extensible then
      (.error (.exception (.typeError "Cannot add property \"%V\", object is not extensible"
        [key.name])), q.object, q.protos)
    else if !env.memory.property then (.error (.exception .memoryError), q.object, q.protos)
    else if !env.memory.insert then
      (.error (.internal "lvlhsh insert failed" []), q.object, q.protos)
    else
      (.ok, q.object.setProperty key.name (objectPropAlloc (some setval) .yes), q.protos)

/-- `njs_value_property_set` for a property that has been found and may be written: an own
one gets the value, an inherited one is hidden by a new one. -/
def storeProperty (key : PropertyKey) (setval : Value) (q : QueryResult) (own : Bool)
    (target : Target) (prop : Property) : SetResult × Object × List Object :=
  if own then
    match target, prop.type with
    | .entry, .property =>
      (.ok, q.object.setProperty key.name { prop with value := some setval }, q.protos)
    | .element i, .ref => (.ok, q.object.storeElement i (some setval), q.protos)
    | _, _ =>
      (.error (.internal "unexpected property type \"%s\" while setting"
        [propTypeString prop.type]), q.object, q.protos)
  else addProperty env key setval q

/-- `njs_value_property_set` for a data property: its handler is called, if it has one. -/
def assignProperty (key : PropertyKey) (setval : Value) (q : QueryResult) (own : Bool)
    (target : Target) (prop : Property) : SetResult × Object × List Object :=
  match prop.type with
  | .handler h =>
    match propHandler env h q.object q.protos setval with
    | .ok o protos => (.ok, o, protos)
    | .error e o protos => (.error e, o, protos)
    | .declined => storeProperty env key setval q own target prop
  | _ => storeProperty env key setval q own target prop

/-- `njs_value_property_set` of an object. -/
def valuePropertySet (o : Object) (protos : List Object) (key : PropertyKey) (setval : Value) :
    SetResult × Object × List Object :=
  let q := objectPropertyQuery env.memory .set key false o protos
  match q.result with
  | .error e => (.error e, q.object, q.protos)
  | .declined => addProperty env key setval q
  | .found own target prop =>
    if prop.isData then
      if prop.writable.holds then assignProperty env key setval q own target prop
      else
        (.error (.exception (.typeError "Cannot assign to read-only property \"%V\" of %s"
          [queryKey key target, typeString o.type])), q.object, q.protos)
    else
      match prop.setter with
      | some (.function f) => (.setter f, q.object, q.protos)
      | _ =>
        (.error (.exception (.typeError "Cannot set property \"%V\" of %s which has only a getter"
          [queryKey key target, typeString o.type])), q.object, q.protos)

/-- The outcome of a deletion. -/
inductive DeleteResult
  | ok (removed : Option Value)
  | declined
  | error (e : Error)
  deriving DecidableEq

/-- The white-out that a deletion leaves. -/
def deleted (prop : Property) : Property := { prop with type := .whiteout, value := none }

/-- `njs_value_property_delete` of an object. -/
def valuePropertyDelete (o : Object) (protos : List Object) (key : PropertyKey) :
    DeleteResult × Object :=
  let q := objectPropertyQuery env.memory .delete key true o protos
  match q.result with
  | .error e => (.error e, q.object)
  | .declined => (.declined, q.object)
  | .found _ target prop =>
    if !prop.configurable.holds then
      (.error (.exception (.typeError "Cannot delete property \"%V\" of %s"
        [queryKey key target, typeString o.type])), q.object)
    else
      match target, prop.type with
      | .element i, .ref =>
        match q.object.type with
        | .array start => (.ok ((start[i]?).getD none), q.object.storeElement i none)
        | _ => (.ok none, q.object)
      | _, .whiteout =>
        (.error (.internal "unexpected property type \"%s\" while deleting"
          [propTypeString prop.type]), q.object)
      | _, _ => (.ok prop.value, q.object.setProperty key.name (deleted prop))

/-- The outcome of a read. -/
inductive GetResult
  | ok (v : Value)
  /-- `NJS_DECLINED`, with `undefined`. -/
  | declined
  /-- `njs_function_apply` of a getter. -/
  | getter (f : ℕ)
  | error (e : Error)
  deriving DecidableEq

/-- `njs_array_length` in a read: the length of the first array on the chain. -/
def arrayLengthGet : List Object → GetResult
  | [] => .declined
  | o :: protos =>
    match o.type with
    | .array start => .ok (.number (.finite start.length))
    | _ => arrayLengthGet protos

/-- `prop->value.data.u.prop_handler` in a read. -/
def getHandler (h : PropHandler) (o : Object) (protos : List Object) : GetResult :=
  match h with
  | .arrayLength =>
    match arrayLengthGet (o :: protos) with
    | .declined => .ok .undefined
    | result => result
  | .other h =>
    match env.getHandler h o protos with
    | .ok v => .ok v
    | .error e => .error e

/-- `njs_value_property` of an object. -/
def valueProperty (o : Object) (protos : List Object) (key : PropertyKey) :
    GetResult × Object × List Object :=
  let q := objectPropertyQuery env.memory .get key false o protos
  match q.result with
  | .error e => (.error e, q.object, q.protos)
  | .declined => (.declined, q.object, q.protos)
  | .found _ _ prop =>
    match prop.type with
    | .property =>
      if prop.isData then (.ok (prop.value.getD .undefined), q.object, q.protos)
      else
        match prop.getter with
        | some (.function f) => (.getter f, q.object, q.protos)
        | _ => (.ok .undefined, q.object, q.protos)
    | .handler h => (getHandler env h q.object q.protos, q.object, q.protos)
    | _ =>
      (.error (.internal "unexpected property type \"%s\" while getting"
        [propTypeString prop.type]), q.object, q.protos)

end Njs.Objects
