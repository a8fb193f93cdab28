import Njs.Objects.Defining
import Njs.Objects.Chains

/-!
# Definitions and ECMAScript

`Object.defineProperty()` does what ECMAScript says under the condition `Conforms`: elements of
arrays, which are made anew from the value of the descriptor alone, and values that `===` does not
tell apart are where it goes wrong.
-/

namespace Njs.Objects

variable {env : Env} {reading : Reading} {desc : List Object} {d : Descriptor}
  {key : PropertyKey} {start : List (Option Value)} {i : ℕ} {protos : List Object}
  {prev prop : Property} {p : OwnProperty} {o : Object}

/-- The error says that there is no memory. -/
def Error.OutOfMemory (e : Error) : Prop :=
  e = .exception .memoryError ∨ e = .internal "lvlhsh insert failed" []

/-- A definition does what ECMAScript says: it leaves the properties that are expected. If it
throws, none are expected, or there is no memory, and the properties are those from before. -/
def Follows (expected : Option Properties) (o : Object) (outcome : Defined) : Prop :=
  match outcome with
  | (.ok (), after, _) => expected = some after.properties
  | (.error e, after, _) => (expected = none ∨ e.OutOfMemory) ∧ after.properties = o.properties

/-- What ECMAScript says of `Object.defineProperty()`. -/
def expectedProperties (env : Env) (reading : Reading) (o : Object)
    (name : Except Error PropertyKey) (desc : Option (List Object)) : Option Properties :=
  match name, desc with
  | .ok key, some desc =>
    (toPropertyDescriptor reading desc).bind
      (o.properties.define (valueToNumber env) o.extensible key)
  | _, _ => none

/-! ## The lookup -/

/-- After a lookup that leaves the object as it is, the descriptor is merged, unless it is not
one or there is no memory. -/
theorem follows_objectPropDefine {result : Lookup} {ownWhiteout : Bool}
    {define : Descriptor → Option Properties} (hintact : Intact desc)
    (hquery : objectPropertyQuery env.memory .set key true o protos =
      ⟨result, ownWhiteout, o, protos⟩) (hresult : ∀ e, result ≠ .error e) :
    Follows ((toPropertyDescriptor reading desc).bind define) o
        (objectPropDefine env reading o protos key (.descriptor desc)) ↔
      (env.memory.property = true → ∀ d, toPropertyDescriptor reading desc = some d →
        Follows (define d) o
          (match result with
          | .found _ target prev => updateProperty env o protos key target prev d.toProperty
          | _ => newProperty env o protos key ownWhiteout d.toProperty)) := by
  have hdefined := definedProperty_eq reading hintact
  unfold objectPropDefine
  simp only [hquery]
  cases hproperty : env.memory.property with
  | false =>
    have hmemory : Follows ((toPropertyDescriptor reading desc).bind define) o
        (.error (.exception .memoryError), o, protos) := ⟨Or.inr (Or.inl rfl), rfl⟩
    cases result with
    | error e => exact absurd rfl (hresult e)
    | found own target prev => simpa using hmemory
    | declined => simpa using hmemory
  | true =>
    cases hdesc : toPropertyDescriptor reading desc with
    | none =>
      rw [hdesc] at hdefined
      obtain ⟨e, he⟩ := hdefined
      have hnone : Follows (Option.bind none define) o (.error e, o, protos) :=
        ⟨Or.inl rfl, rfl⟩
      cases result with
      | error e => exact absurd rfl (hresult e)
      | found own target prev => simpa [he] using hnone
      | declined => simpa [he] using hnone
    | some d =>
      rw [hdesc] at hdefined
      simp only at hdefined
      cases result with
      | error e => exact absurd rfl (hresult e)
      | found own target prev => simp [hdefined]
      | declined => simp [hdefined]

/-- A key that is looked up in the hashes. -/
theorem PlainObject.ownQuery_eq {o : PlainObject} (h : o.Hashes key) (memory : Memory) :
    ownQuery memory .set key o.toObject = hashQuery memory key.name o.toObject := by
  unfold ownQuery
  cases htype : o.type with
  | object => rfl
  | array start =>
    rw [(h start htype).1]
  | string value => exact absurd htype (o.not_string value)

/-- What is found in the hashes. -/
inductive PlainObject.Found (o : PlainObject) (memory : Memory) (key : PropertyKey) : Prop
  | kept (prev : Property) (p : OwnProperty) (hkept : Kept prev p)
    (hnamed : o.named key.name = some p)
    (hquery : ∀ protos, objectPropertyQuery memory .set key true o.toObject protos =
      ⟨.found true .entry prev, false, o.toObject, protos⟩)
  | absent (ownWhiteout : Bool) (hnamed : o.named key.name = none)
    (hquery : ∀ protos, objectPropertyQuery memory .set key true o.toObject protos =
      ⟨.declined, ownWhiteout, o.toObject, protos⟩)

theorem PlainObject.found {o : PlainObject} (h : o.Hashes key) (memory : Memory) :
    o.Found memory key := by
  have howner := o.ownQuery_eq h memory
  have hnot : ¬((∃ start, o.type = .array start) ∧ key.name = lengthName) := by
    rintro ⟨⟨start, htype⟩, hname⟩
    exact (h start htype).2 hname
  cases hhash : o.hash.lookup key.name with
  | some prev =>
    by_cases hwhite : prev.type = .whiteout
    · have hnamed : o.named key.name = none := by
        simp [Object.named, Object.find, hhash, hwhite]
      apply Found.absent true hnamed
      intro protos
      unfold objectPropertyQuery
      rw [howner]
      simp [hashQuery, hhash, hwhite]
    · rcases o.kept key.name prev hhash hwhite with hlength | ⟨p, hkept⟩
      · exact absurd hlength hnot
      · have hnamed : o.named key.name = some p := by
          simp [Object.named, Object.find, hhash, hwhite, hkept.ownProperty_eq]
        apply Found.kept prev p hkept hnamed
        intro protos
        unfold objectPropertyQuery
        rw [howner]
        simp [hashQuery, hhash, hwhite]
  | none =>
    have hshared : o.sharedHash.lookup key.name = none := by
      cases hlookup : o.sharedHash.lookup key.name with
      | none => rfl
      | some prop => exact absurd (o.shared key.name prop hlookup) hnot
    have hnamed : o.named key.name = none := by
      simp [Object.named, Object.find, hhash, hshared]
    apply Found.absent false hnamed
    intro protos
    unfold objectPropertyQuery
    rw [howner]
    simp [hashQuery, hhash, hshared]

/-! ## Properties in a hash -/

/-- The properties with another one. -/
def Properties.withNamed (properties : Properties) (name : Name) (p : OwnProperty) : Properties :=
  match properties with
  | .object named => .object (Function.update named name (some p))
  | .array elements lengthWritable named =>
    .array elements lengthWritable (Function.update named name (some p))

theorem PlainObject.define_hashes {o : PlainObject} (h : o.Hashes key)
    (toNumber : Value → Except Error Number) (extensible : Bool) (d : Descriptor) :
    o.properties.define toNumber extensible key d =
      (validateAndApply extensible (o.named key.name) d).map
        (o.properties.withNamed key.name) := by
  unfold Object.properties
  cases htype : o.type with
  | object => rfl
  | array start =>
    obtain ⟨hindex, hname⟩ := h start htype
    simp only [Properties.define, hindex, if_neg hname, Function.update_of_ne hname]
    rfl
  | string value => exact absurd htype (o.not_string value)

theorem PlainObject.properties_setProperty {o : PlainObject} (h : o.Hashes key)
    (hkept : Kept prop p) :
    (o.setProperty key.name prop).properties = o.properties.withNamed key.name p := by
  have hnamed := o.named_setProperty hkept key.name
  unfold Object.properties
  rw [Object.setProperty_type]
  cases htype : o.type with
  | object => rw [hnamed]; rfl
  | array start =>
    obtain ⟨-, hname⟩ := h start htype
    have hwritable : (o.setProperty key.name prop).lengthWritable = o.lengthWritable := by
      unfold Object.lengthWritable
      rw [o.setProperty_find_of_ne prop hname.symm]
    simp only [Properties.withNamed, hnamed, hwritable, Function.update_comm hname]
  | string value => exact absurd htype (o.not_string value)

/-- A property that is not there is added. -/
theorem PlainObject.follows_newProperty {o : PlainObject} (h : o.Hashes key)
    (hnamed : o.named key.name = none) (ownWhiteout : Bool) (d : Descriptor) :
    Follows (o.properties.define (valueToNumber env) true key d) o.toObject
      (newProperty env o.toObject protos key ownWhiteout d.toProperty) := by
  rw [o.define_hashes h, hnamed]
  have hadded : Follows ((validateAndApply true none d).map (o.properties.withNamed key.name))
      o.toObject (.ok (), o.setProperty key.name (completed d.toProperty), protos) := by
    simp only [Follows, validateAndApply, if_true, Option.map_some,
      o.properties_setProperty h (kept_completed d)]
  unfold newProperty
  split_ifs
  · exact hadded
  · exact ⟨Or.inr (Or.inr rfl), rfl⟩
  · exact hadded

/-- `===` does not compare the values as `SameValue` does. -/
def Confusable (v w : Value) : Prop :=
  v = .number .nan ∧ w = .number .nan ∨ v = .number (.finite 0) ∧ w = .negativeZero ∨
    v = .negativeZero ∧ w = .number (.finite 0)

/-- The property must keep a value, and the descriptor has one that is confused with it. -/
def OwnProperty.Confuses (p : OwnProperty) (d : Descriptor) : Prop :=
  ∃ v enumerable w, p = .data v false enumerable false ∧ d.value = some w ∧ Confusable v w

theorem isZero_iff (v : Value) :
    isZero (some v) = true ↔ v = .number (.finite 0) ∨ v = .negativeZero := by
  simp [isZero]

theorem strictSame_iff (w v : Value) : strictSame w v = true ↔
    w = v ∧ w ≠ .number .nan ∨ (w = .number (.finite 0) ∨ w = .negativeZero) ∧
      (v = .number (.finite 0) ∨ v = .negativeZero) := by
  unfold strictSame strictEqual
  rw [decide_eq_true_iff, isZero_iff, isZero_iff]
  simp

theorem strictSame_ne_iff (w v : Value) : strictSame w v ≠ sameValue w v ↔ Confusable v w := by
  have hstrict := strictSame_iff w v
  have hsame : sameValue w v = true ↔ w = v := decide_eq_true_iff
  unfold Confusable
  rw [Ne, Bool.eq_iff_iff, hstrict, hsame]
  by_cases heq : w = v
  · subst heq
    constructor
    · intro h
      left
      by_contra hnan
      exact h ⟨fun _ => rfl, fun _ => Or.inl ⟨rfl, fun h => hnan ⟨h, h⟩⟩⟩
    · rintro (⟨rfl, -⟩ | ⟨rfl, ⟨⟩⟩ | ⟨rfl, ⟨⟩⟩)
      simp
  · simp only [heq, false_and, false_or, iff_false, not_not]
    constructor
    · rintro ⟨rfl | rfl, rfl | rfl⟩
      · exact absurd rfl heq
      · exact Or.inr (Or.inr ⟨rfl, rfl⟩)
      · exact Or.inr (Or.inl ⟨rfl, rfl⟩)
      · exact absurd rfl heq
    · rintro (⟨rfl, rfl⟩ | ⟨rfl, rfl⟩ | ⟨rfl, rfl⟩)
      · exact absurd rfl heq
      · exact ⟨Or.inr rfl, Or.inl rfl⟩
      · exact ⟨Or.inl rfl, Or.inr rfl⟩

theorem strictSame_of_callable {w : Value} (h : isFunctionOrUndefined (some w) = true) (v : Value) :
    strictSame w v = sameValue w v := by
  by_contra hne
  rcases (strictSame_ne_iff w v).mp hne with ⟨-, rfl⟩ | ⟨-, rfl⟩ | ⟨-, rfl⟩
  · cases h
  · cases h
  · cases h

theorem agrees_of_callable {field : Option Value}
    (h : ∀ w, field = some w → isFunctionOrUndefined (some w) = true) (v : Value) :
    agrees strictSame field v = agrees sameValue field v := by
  cases field with
  | none => rfl
  | some w => exact strictSame_of_callable (h w rfl) v

/-- The checks of the values differ exactly if a value is confused. -/
theorem keeps_ne_iff (p : OwnProperty) (d : Descriptor) :
    p.keeps strictSame d ≠ p.keeps sameValue d ↔ p.Confuses d := by
  unfold OwnProperty.Confuses
  cases p with
  | data v writable enumerable configurable =>
    cases configurable with
    | true => simp [OwnProperty.keeps, OwnProperty.configurable]
    | false =>
      cases writable with
      | true => simp [OwnProperty.keeps, OwnProperty.configurable]
      | false =>
        cases hvalue : d.value with
        | none => simp [OwnProperty.keeps, OwnProperty.configurable, agrees, hvalue]
        | some w =>
          have hne := strictSame_ne_iff w v
          simpa [OwnProperty.keeps, OwnProperty.configurable, agrees, hvalue] using hne
  | accessor get set enumerable configurable =>
    have hget := agrees_of_callable d.get_callable get
    have hset := agrees_of_callable d.set_callable set
    simp [OwnProperty.keeps, hget, hset]

/-- Writing a property in two steps. -/
theorem PlainObject.properties_setProperty_twice {o : PlainObject} (h : o.Hashes key)
    (first : Property) (hkept : Kept prop p) :
    ((o.setProperty key.name first).setProperty key.name prop).properties =
      o.properties.withNamed key.name p := by
  rw [← o.properties_setProperty h hkept]
  unfold Object.setProperty
  simp only [AList.insert_insert]

theorem Kept.type_eq (h : Kept prev p) : prev.type = .property := by
  cases h <;> rfl

/-- A property that is no handler is merged with the descriptor, unless it is refused. -/
theorem updateProperty_of_type (htype : prev.type = .property) :
    updateProperty env o protos key .entry prev prop =
      if attributesRefused prev prop || fieldsRefused prev prop then
        (.error (cannotRedefine key .entry), o, protos)
      else
        (.ok (), (o.setProperty key.name (withFields (converted prev prop) prop)).setProperty
          key.name (merged prev prop), protos) := by
  have happly : applyFields env o protos key.name .entry prev prop =
      (.ok (), (o.setProperty key.name (withFields (converted prev prop) prop)).setProperty
        key.name (merged prev prop), protos) := by
    unfold applyFields
    simp only [withFields_converted_type, htype]
    rfl
  unfold updateProperty
  simp only [htype, reduceCtorEq, if_false, happly]
  cases attributesRefused prev prop <;> cases fieldsRefused prev prop <;> rfl

/-- A property that is there is merged with the descriptor as ECMAScript says, unless its value is
confused with another one. -/
theorem PlainObject.follows_updateProperty {o : PlainObject} (env : Env)
    (protos : List Object) (h : o.Hashes key)
    (hkept : Kept prev p) (hnamed : o.named key.name = some p) (d : Descriptor) :
    Follows (o.properties.define (valueToNumber env) true key d) o.toObject
        (updateProperty env o.toObject protos key .entry prev d.toProperty) ↔
      ¬(p.allows d = true ∧ p.Confuses d) := by
  have hrefused := hkept.refused d
  have hmerged := o.properties_setProperty_twice h
    (withFields (converted prev d.toProperty) d.toProperty) (hkept.merged d)
  have hconfuses := keeps_ne_iff p d
  have houtcome : updateProperty env o.toObject protos key .entry prev d.toProperty =
      if p.allows d && p.keeps strictSame d then
        (.ok (), (o.setProperty key.name
          (withFields (converted prev d.toProperty) d.toProperty)).setProperty key.name
          (merged prev d.toProperty), protos)
      else (.error (cannotRedefine key .entry), o.toObject, protos) := by
    rw [updateProperty_of_type hkept.type_eq, hrefused]
    cases p.allows d && p.keeps strictSame d <;> rfl
  rw [o.define_hashes h, hnamed, houtcome]
  have hthrown : ¬(cannotRedefine key .entry).OutOfMemory := by
    simp [Error.OutOfMemory, cannotRedefine]
  simp only [validateAndApply]
  cases hallows : p.allows d with
  | false => simp [Follows]
  | true =>
    rw [← hconfuses]
    cases hstrict : p.keeps strictSame d <;> cases hsame : p.keeps sameValue d <;>
      simp [Follows, hmerged, hthrown]

/-- The definition of a property that is kept in a hash. -/
theorem PlainObject.follows_hashes {o : PlainObject} (h : o.Hashes key) (hintact : Intact desc) :
    Follows ((toPropertyDescriptor reading desc).bind
        (o.properties.define (valueToNumber env) true key)) o.toObject
        (objectPropDefine env reading o.toObject protos key (.descriptor desc)) ↔
      (env.memory.property = true → ∀ d, toPropertyDescriptor reading desc = some d →
        ∀ p, o.named key.name = some p → ¬(p.allows d = true ∧ p.Confuses d)) := by
  cases o.found h env.memory with
  | kept prev p hkept hnamed hquery =>
    rw [follows_objectPropDefine hintact (hquery protos) (by rintro e ⟨⟩), hnamed]
    apply forall_congr'
    intro hproperty
    apply forall₂_congr
    intro d hd
    have hupdate := o.follows_updateProperty env protos h hkept hnamed d
    simpa using hupdate
  | absent ownWhiteout hnamed hquery =>
    rw [follows_objectPropDefine hintact (hquery protos) (by rintro e ⟨⟩), hnamed]
    constructor
    · rintro - - d - p ⟨⟩
    · rintro - - d -
      exact o.follows_newProperty h hnamed ownWhiteout d

/-! ## Elements -/

/-- The descriptor makes an element what the code makes of it: a new one from the value. -/
def Descriptor.FitsElement (d : Descriptor) (current : Option Value) : Prop :=
  d.isAccessor = false ∧
    match current with
    | some v => d.writable ≠ some false ∧ d.enumerable ≠ some false ∧
        d.configurable ≠ some false ∧ (d.value = none → v = .undefined)
    | none => d.writable = some true ∧ d.enumerable = some true ∧ d.configurable = some true

theorem fitsElement_iff (d : Descriptor) (current : Option Value) :
    validateAndApply true (current.map fun v => .data v true true true) d =
        some (.data (d.value.getD .undefined) true true true) ↔ d.FitsElement current := by
  have hgetD : ∀ b : Option Bool, b.getD true = true ↔ b ≠ some false := by
    intro b
    rcases b with _ | _ | _ <;> simp
  have hgetD' : ∀ b : Option Bool, b.getD false = true ↔ b = some true := by
    intro b
    rcases b with _ | _ | _ <;> simp
  unfold Descriptor.FitsElement
  cases current with
  | none =>
    cases haccessor : d.isAccessor with
    | true => simp [validateAndApply, Descriptor.complete, haccessor]
    | false => simp [validateAndApply, Descriptor.complete, haccessor, hgetD']
  | some v =>
    have hallowed : (OwnProperty.data v true true true).allows d = true ∧
        (OwnProperty.data v true true true).keeps sameValue d = true := by
      simp [OwnProperty.allows, OwnProperty.keeps, OwnProperty.configurable]
    cases haccessor : d.isAccessor with
    | true => simp [validateAndApply, hallowed, OwnProperty.apply, haccessor]
    | false =>
      have hvalue : d.value.getD v = d.value.getD .undefined ↔
          (d.value = none → v = .undefined) := by
        cases d.value <;> simp
      simp only [validateAndApply, Option.map_some, hallowed, Bool.and_self, if_true,
        OwnProperty.apply, haccessor, Bool.false_eq_true, if_false, Option.some.injEq,
        OwnProperty.data.injEq, hvalue, hgetD]
      tauto

@[simp] theorem length_elementProperties (start : List (Option Value)) :
    (elementProperties start).length = start.length :=
  List.length_map _

theorem elementProperties_set (start : List (Option Value)) (i : ℕ) (v : Value) :
    elementProperties (start.set i (some v)) =
      (elementProperties start).set i (some (.data v true true true)) := by
  unfold elementProperties
  rw [List.map_set]
  rfl

theorem map_set_eq_iff {l : List (Option OwnProperty)} (hlt : i < l.length)
    (x : Option OwnProperty) (p : OwnProperty) {writable : Bool}
    {named : Name → Option OwnProperty} :
    x.map (fun p => Properties.array (l.set i (some p)) writable named) =
      some (.array (l.set i (some p)) writable named) ↔ x = some p := by
  cases x with
  | none => simp
  | some q =>
    simp only [Option.map_some, Option.some.injEq, Properties.array.injEq, and_true]
    constructor
    · intro h
      have hi := congrArg (fun l => l[i]?) h
      simpa [List.getElem?_set, hlt] using hi
    · rintro rfl
      rfl

/-- The definition of an element that an array has a place for. -/
theorem follows_element {o : Object} (htype : o.type = .array start) (hindex : key.index = some i)
    (hlt : i < start.length) (hintact : Intact desc) :
    Follows ((toPropertyDescriptor reading desc).bind
        (o.properties.define (valueToNumber env) true key)) o
        (objectPropDefine env reading o protos key (.descriptor desc)) ↔
      (env.memory.property = true → ∀ d, toPropertyDescriptor reading desc = some d →
        d.FitsElement ((start[i]?).getD none)) := by
  have hquery : objectPropertyQuery env.memory .set key true o protos =
      ⟨.found true (.element i) (elementProperty .ref none), false, o, protos⟩ := by
    unfold objectPropertyQuery
    simp [ownQuery, htype, hindex, arrayPropertyQuery, Nat.not_le.mpr hlt,
      Object.setElements_self htype]
  rw [follows_objectPropDefine hintact hquery (by rintro e ⟨⟩)]
  apply forall_congr'
  intro hproperty
  apply forall₂_congr
  intro d hd
  have hcurrent : ((elementProperties start)[i]?).getD none =
      ((start[i]?).getD none).map fun v => .data v true true true := by
    simp [elementProperties, List.getElem?_eq_getElem hlt]
  have hlength : i < (elementProperties start).length := by
    simpa using hlt
  rw [← fitsElement_iff, o.properties_array htype]
  simp only [Properties.define, hindex, if_pos hlength, hcurrent, updateProperty,
    elementProperty, Follows, Object.storeElement_of_array htype, Object.properties_setElements]
  rw [elementProperties_set]
  exact map_set_eq_iff hlength _ _

theorem grownElements_set (hle : start.length ≤ i) (stale v : Option Value) :
    (grownElements start i stale).set i v =
      start ++ List.replicate (i - start.length) none ++ [v] := by
  have hlength : (start ++ List.replicate (i - start.length) none).length = i := by
    simp
    omega
  unfold grownElements
  rw [List.set_append_right _ _ hlength.le, hlength, Nat.sub_self]
  rfl

theorem elementProperties_grown (start : List (Option Value)) (n : ℕ) (v : Value) :
    elementProperties (start ++ List.replicate n none ++ [some v]) =
      elementProperties start ++ List.replicate n none ++ [some (.data v true true true)] := by
  simp [elementProperties]

theorem map_append_eq_iff {l : List (Option OwnProperty)} (x : Option OwnProperty)
    (p : OwnProperty) {writable : Bool} {named : Name → Option OwnProperty} :
    x.map (fun p => Properties.array (l ++ [some p]) writable named) =
      some (.array (l ++ [some p]) writable named) ↔ x = some p := by
  cases x with
  | none => simp
  | some q => simp

/-- The definition of an element behind the end of an array makes the array longer first. -/
theorem follows_grown {o : Object} (htype : o.type = .array start) (hindex : key.index = some i)
    (hle : start.length ≤ i) (hintact : Intact desc) :
    Follows ((toPropertyDescriptor reading desc).bind
        (o.properties.define (valueToNumber env) true key)) o
        (objectPropDefine env reading o protos key (.descriptor desc)) ↔
      (∀ stale, env.memory.expand start (i - start.length + 1) = some stale →
        env.memory.property = true ∧ o.lengthWritable = true ∧
          ∃ d, toPropertyDescriptor reading desc = some d ∧ d.FitsElement none) := by
  have hdefined := definedProperty_eq reading hintact
  unfold objectPropDefine
  cases hexpand : env.memory.expand start (i - start.length + 1) with
  | none =>
    have hquery : objectPropertyQuery env.memory .set key true o protos =
        ⟨.error (.exception .memoryError), false, o, protos⟩ := by
      unfold objectPropertyQuery
      simp [ownQuery, htype, hindex, arrayPropertyQuery, hle, hexpand,
        Object.setElements_self htype]
    simp [hquery, Follows, Error.OutOfMemory]
  | some stale =>
    have hquery : objectPropertyQuery env.memory .set key true o protos =
        ⟨.found true (.element i) (elementProperty .ref none), false,
          o.setElements (grownElements start i stale), protos⟩ := by
      unfold objectPropertyQuery
      rw [ownQuery_grown htype hindex hle hexpand]
    have hchanged : (o.setElements (grownElements start i stale)).properties ≠ o.properties := by
      rw [o.properties_array htype, Object.properties_setElements]
      intro h
      have hlength := congrArg List.length (Properties.array.inj h).1
      simp [grownElements] at hlength
    simp only [hquery, Option.some.injEq, forall_eq']
    cases hproperty : env.memory.property with
    | false => simp [Follows, hchanged]
    | true =>
      cases hdesc : toPropertyDescriptor reading desc with
      | none =>
        rw [hdesc] at hdefined
        obtain ⟨e, he⟩ := hdefined
        simp [he, Follows, hchanged]
      | some d =>
        rw [hdesc] at hdefined
        simp only at hdefined
        have hlength : ¬i < (elementProperties start).length := by
          simpa using hle
        have hstored : (o.setElements (grownElements start i stale)).storeElement i
            (some (d.toProperty.value.getD .undefined)) =
              o.setElements (start ++ List.replicate (i - start.length) none ++
                [some (d.value.getD .undefined)]) := by
          rw [Object.storeElement_of_array (Object.setElements_type _ _), grownElements_set hle]
          rfl
        have hfits := fitsElement_iff d none
        rw [o.properties_array htype]
        simp only [Bool.not_true, Bool.false_eq_true, if_false, hdefined, Option.bind_some,
          Properties.define, hindex, if_neg hlength, updateProperty, elementProperty, Follows,
          hstored, Object.properties_setElements, elementProperties_grown, true_and,
          Option.some.injEq, exists_eq_left']
        cases hwritable : o.lengthWritable with
        | false => simp
        | true =>
          rw [if_pos rfl, length_elementProperties, map_append_eq_iff]
          simpa using hfits

/-! ## The length of an array -/

/-- The length that a value is converted to. -/
def lengthOfValue (env : Env) (v : Value) : Option ℕ :=
  match valueToNumber env v with
  | .ok num => lengthOf num
  | .error _ => none

/-- The property `length` of an array of ECMAScript. -/
def lengthData (n : ℕ) (writable : Bool) : OwnProperty :=
  .data (.number (.finite n)) writable false false

/-- A length that may not be written is the one that the descriptor gives. -/
def Descriptor.FitsLength (d : Descriptor) (env : Env) (n : ℕ) (writable : Bool) : Prop :=
  (lengthData n writable).allows d = true → ∀ v, d.value = some v →
    writable = true ∨ lengthOfValue env v = some n

theorem lengthOf_eq (num : Number) : lengthOf num =
    if .finite (numberToLength num) = num then some (numberToLength num) else none := by
  cases num with
  | nan => rfl
  | posInfinity => rfl
  | negInfinity => rfl
  | finite q =>
    unfold lengthOf
    by_cases hq : q.den = 1 ∧ 0 ≤ q.num ∧ q.num < 2 ^ 32
    · have hcast : q = (q.num.toNat : ℚ) := by
        have hnum : (q.num : ℚ) = q := Rat.coe_int_num_of_den_eq_one hq.1
        rw [← hnum]
        have hnat : ((q.num.toNat : ℤ) : ℚ) = (q.num : ℚ) := by
          rw [Int.toNat_of_nonneg hq.2.1]
        exact_mod_cast hnat.symm
      have hlength : numberToLength (.finite q) = q.num.toNat := by
        conv_lhs => rw [hcast]
        apply numberToLength_natCast
        omega
      simp only [if_pos hq, hlength]
      rw [if_pos]
      rw [← hcast]
    · have hne : ¬Number.finite (numberToLength (.finite q)) = .finite q := by
        intro h
        have hcast := Number.finite.inj h
        have hlt := numberToLength_lt (.finite q)
        apply hq
        rw [← hcast]
        simp
        omega
      simp only [if_neg hq, if_neg hne]

theorem Object.Same.properties {o o' : Object} (h : o.Same o') : o'.properties = o.properties := by
  unfold Object.properties Object.lengthWritable Object.named
  simp only [h.type, h.find]

/-- The object with another property `length`. -/
def Object.setLength (o : Object) (writable : Bool) : Object :=
  o.setProperty lengthName (lengthProperty writable)

theorem Object.setLength_find (o : Object) (writable : Bool) :
    (o.setLength writable).find lengthName = some (lengthProperty writable) := by
  unfold setLength
  rw [Object.setProperty_find_self, if_neg]
  rintro ⟨⟩

theorem Object.properties_setLength {o : Object} (htype : o.type = .array start)
    (writable : Bool) : (o.setLength writable).properties =
      .array (elementProperties start) writable (Function.update o.named lengthName none) := by
  have hwritable : (o.setLength writable).lengthWritable = writable := by
    unfold lengthWritable
    rw [o.setLength_find]
    simp [lengthProperty]
  have hnamed : Function.update (o.setLength writable).named lengthName none =
      Function.update o.named lengthName none := by
    funext name
    by_cases hname : name = lengthName
    · rw [hname, Function.update_self, Function.update_self]
    · rw [Function.update_of_ne hname, Function.update_of_ne hname]
      unfold named setLength
      rw [o.setProperty_find_of_ne _ hname]
  have htype' : (o.setLength writable).type = .array start := htype
  rw [Object.properties_array htype', hwritable, hnamed]

theorem Object.setLength_setLength (o : Object) (first writable : Bool) :
    (o.setLength first).setLength writable = o.setLength writable := by
  unfold setLength setProperty
  simp only [AList.insert_insert]

/-- The property `length` is refused exactly if ECMAScript refuses it. -/
theorem lengthProperty_refused (n : ℕ) (writable : Bool) (d : Descriptor) :
    (attributesRefused (lengthProperty writable) d.toProperty ||
        fieldsRefused (lengthProperty writable) d.toProperty) =
      !(lengthData n writable).allows d := by
  have hattributes : attributesRefused (lengthProperty writable) d.toProperty =
      !(false || (d.configurable ≠ some true && d.enumerable.all (· = false))) :=
    attributesRefused_eq _ d rfl rfl
  have hisData : (lengthProperty writable).isData = true := by
    cases writable <;> rfl
  have hfields : fieldsRefused (lengthProperty writable) d.toProperty =
      !(!d.isAccessor && (writable || d.writable ≠ some true)) := by
    unfold fieldsRefused
    rw [d.isGeneric_toProperty, d.isData_toProperty, hisData]
    simp only [lengthProperty, Attribute.no_holds, Attribute.ofBool_holds, Property.isHandler,
      Descriptor.toProperty, Attribute.ofField_eq_yes]
    cases haccessor : d.isAccessor with
    | true =>
      rw [d.isData_of_isAccessor haccessor]
      simp
    | false =>
      cases hdata : d.isData with
      | true => cases writable <;> simp
      | false =>
        have hnone : d.value = none ∧ d.writable = none := by
          simpa [Descriptor.isData] using hdata
        simp [hnone.2]
  rw [hattributes, hfields]
  simp only [lengthData, OwnProperty.allows, OwnProperty.configurable, OwnProperty.enumerable,
    Bool.false_or, Bool.not_and]
  rfl

/-- What a descriptor that is allowed may say of the length. -/
theorem lengthData_allows {n : ℕ} {writable : Bool} (h : (lengthData n writable).allows d = true) :
    d.isAccessor = false ∧ d.configurable ≠ some true ∧ d.enumerable ≠ some true ∧
      (writable = true ∨ d.writable ≠ some true) := by
  simp only [lengthData, OwnProperty.allows, OwnProperty.configurable, OwnProperty.enumerable,
    Bool.false_or, Bool.and_eq_true, decide_eq_true_eq, Bool.not_eq_true', Bool.or_eq_true] at h
  obtain ⟨⟨hconfigurable, henumerable⟩, haccessor, hwritable⟩ := h
  refine ⟨haccessor, hconfigurable, ?_, hwritable⟩
  intro htrue
  rw [htrue] at henumerable
  cases henumerable

theorem withFields_length {writable : Bool} (haccessor : d.isAccessor = false) :
    withFields (converted (lengthProperty writable) d.toProperty) d.toProperty =
      lengthProperty writable := by
  have hnone : d.get = none ∧ d.set = none := by
    simpa [Descriptor.isAccessor] using haccessor
  have hisData : (lengthProperty writable).isData = true := by
    cases writable <;> rfl
  have hconverted : converted (lengthProperty writable) d.toProperty =
      lengthProperty writable := by
    unfold converted
    rw [d.isGeneric_toProperty, d.isData_toProperty, hisData, haccessor]
    apply if_pos
    cases d.isData <;> simp
  rw [hconverted]
  simp only [withFields, lengthProperty, Property.isHandler, Descriptor.toProperty, hnone.1,
    hnone.2]
  rfl

theorem withAttributes_length {n : ℕ} {writable : Bool}
    (h : (lengthData n writable).allows d = true) :
    withAttributes (lengthProperty writable) d.toProperty =
      lengthProperty (d.writable.getD writable) := by
  obtain ⟨-, hconfigurable, henumerable, -⟩ := lengthData_allows h
  have hno : ∀ b : Option Bool, b ≠ some true → (Attribute.ofField b).orElse .no = .no := by
    intro b hb
    rcases b with _ | _ | _
    · rfl
    · rfl
    · exact absurd rfl hb
  simp only [withAttributes, lengthProperty, Descriptor.toProperty, Attribute.ofField_orElse,
    hno _ hconfigurable, hno _ henumerable]

/-- The length of an array is written. -/
theorem arrayLength_eq {o : Object} (env : Env) (protos : List Object)
    (htype : o.type = .array start) (v : Value) :
    (∃ e, arrayLength env o protos v = .error e o protos ∧
      (lengthOfValue env v = none ∨ e.OutOfMemory)) ∨
    ∃ n, lengthOfValue env v = some n ∧
      arrayLength env o protos v = .ok (o.setElements (resizedElements start n)) protos := by
  unfold arrayLength lengthOfValue
  simp only [htype]
  cases valueToNumber env v with
  | error e => exact Or.inl ⟨e, rfl, Or.inl rfl⟩
  | ok num =>
    simp only [lengthOf_eq]
    by_cases hnum : .finite (numberToLength num) = num
    · simp only [ne_eq, hnum, not_true_eq_false, if_false, if_true]
      split_ifs
      · exact Or.inl ⟨_, rfl, Or.inr (Or.inl rfl)⟩
      · exact Or.inr ⟨_, rfl, rfl⟩
    · simp only [ne_eq, hnum, not_false_eq_true, if_true, if_false]
      exact Or.inl ⟨_, rfl, Or.inl trivial⟩

theorem elementProperties_resized (start : List (Option Value)) (n : ℕ) :
    setLength (elementProperties start) n = some (elementProperties (resizedElements start n)) := by
  have hall : ((elementProperties start).drop n).all
      (fun p => p.all OwnProperty.configurable) = true := by
    rw [List.all_eq_true]
    intro p hp
    obtain ⟨v, -, rfl⟩ := List.mem_map.mp (List.mem_of_mem_drop hp)
    cases v <;> rfl
  unfold setLength
  rw [if_pos hall]
  simp [elementProperties, resizedElements]

theorem resizedElements_length (start : List (Option Value)) :
    resizedElements start start.length = start := by
  simp [resizedElements]

/-- What ECMAScript makes of the length. -/
theorem define_length {o : Object} (htype : o.type = .array start) (hindex : key.index = none)
    (hname : key.name = lengthName)
    (hallows : (lengthData start.length o.lengthWritable).allows d = true) :
    o.properties.define (valueToNumber env) true key d =
      match d.value with
      | none => some (.array (elementProperties start) (d.writable.getD o.lengthWritable)
          (Function.update o.named lengthName none))
      | some v =>
        (lengthOfValue env v).bind fun n =>
          if o.lengthWritable = true ∨ n = start.length then
            some (.array (elementProperties (resizedElements start n))
              (d.writable.getD o.lengthWritable) (Function.update o.named lengthName none))
          else none := by
  have hallows' : (OwnProperty.data (.number (.finite start.length)) o.lengthWritable false
      false).allows d = true := hallows
  rw [Object.properties_array htype]
  simp only [Properties.define, hindex, if_pos hname, length_elementProperties, hallows',
    if_true]
  cases d.value with
  | none => rfl
  | some v =>
    unfold lengthOfValue
    dsimp only
    cases valueToNumber env v with
    | error e => rfl
    | ok num =>
      dsimp only
      cases lengthOf num with
      | none => rfl
      | some n =>
        simp only [arraySetLength, length_elementProperties, hallows', elementProperties_resized,
          Option.bind_some, Option.map_some, Bool.true_and, Bool.or_eq_true, decide_eq_true_eq]

/-- A definition of the length that ECMAScript refuses. -/
theorem define_length_refused {o : Object} (htype : o.type = .array start)
    (hindex : key.index = none) (hname : key.name = lengthName)
    (hallows : (lengthData start.length o.lengthWritable).allows d = false) :
    o.properties.define (valueToNumber env) true key d = none := by
  have hallows' : (OwnProperty.data (.number (.finite start.length)) o.lengthWritable false
      false).allows d = false := hallows
  rw [Object.properties_array htype]
  simp only [Properties.define, hindex, if_pos hname, length_elementProperties, hallows',
    Bool.false_eq_true, if_false]
  cases d.value with
  | none => rfl
  | some v =>
    dsimp only
    cases valueToNumber env v with
    | error e => rfl
    | ok num =>
      dsimp only
      cases lengthOf num with
      | none => rfl
      | some n => simp [arraySetLength, hallows']

/-- A definition of the length that is allowed does what ECMAScript says, unless a value for a
length that may not be written is ignored. -/
theorem follows_applyFields {o after : Object} (htype : o.type = .array start)
    (hindex : key.index = none) (hname : key.name = lengthName) (hsame : o.Same after)
    (hallows : (lengthData start.length o.lengthWritable).allows d = true) :
    Follows (o.properties.define (valueToNumber env) true key d) o
        (applyFields env after protos key.name .entry (lengthProperty o.lengthWritable)
          d.toProperty) ↔
      d.FitsLength env start.length o.lengthWritable := by
  obtain ⟨haccessor, -⟩ := lengthData_allows hallows
  have hafter : after.type = .array start := hsame.type.trans htype
  have hset : (after.setLength o.lengthWritable).type = .array start := hafter
  have hbefore : (after.setLength o.lengthWritable).properties = o.properties := by
    rw [Object.properties_setLength hafter, o.properties_array htype]
    unfold Object.named
    simp only [hsame.find]
  have hnamed : Function.update after.named lengthName none =
      Function.update o.named lengthName none := by
    unfold Object.named
    simp only [hsame.find]
  have hisData : (lengthProperty o.lengthWritable).isData = true := by
    cases o.lengthWritable <;> rfl
  have hwritten : ∀ o' : Object, o'.writeProperty lengthName .entry
      (withAttributes (lengthProperty o.lengthWritable) d.toProperty) =
        o'.setLength (d.writable.getD o.lengthWritable) := by
    intro o'
    rw [withAttributes_length hallows]
    rfl
  have hstored : after.writeProperty lengthName .entry (lengthProperty o.lengthWritable) =
      after.setLength o.lengthWritable := rfl
  unfold Descriptor.FitsLength applyFields
  rw [define_length htype hindex hname hallows, withFields_length haccessor, hname]
  simp only [hwritten, hstored, hallows, forall_const]
  have hvalue : d.toProperty.value = d.value := rfl
  have hhandler : (lengthProperty o.lengthWritable).type = .handler .arrayLength := rfl
  have hholds : (lengthProperty o.lengthWritable).writable.holds = o.lengthWritable := by
    simp [lengthProperty]
  rw [hvalue, hhandler]
  cases hd : d.value with
  | none =>
    simp [Follows, Object.setLength_setLength, Object.properties_setLength hafter, hnamed]
  | some v =>
    simp only [hisData, hholds, true_and, Option.some.injEq, forall_eq']
    cases hwritable : o.lengthWritable with
    | true =>
      simp only [if_true, propHandler, true_or, iff_true]
      rw [hwritable] at hset hbefore
      rcases arrayLength_eq env protos hset v with
        ⟨e, he, hnone⟩ | ⟨n, hn, hok⟩
      · rw [he]
        refine ⟨?_, hbefore⟩
        rcases hnone with hnone | hmemory
        · left
          rw [hnone]
          rfl
        · exact Or.inr hmemory
      · have hnamed' : Function.update ((after.setLength true).setElements
            (resizedElements start n)).named lengthName none =
              Function.update o.named lengthName none := by
          rw [← hnamed]
          funext name
          by_cases hother : name = lengthName
          · rw [hother, Function.update_self, Function.update_self]
          · rw [Function.update_of_ne hother, Function.update_of_ne hother]
            unfold Object.named
            rw [Object.setElements_find, Object.setLength, after.setProperty_find_of_ne _ hother]
        rw [hok]
        simp only [Follows, hn, Option.bind_some,
          Object.properties_setLength (Object.setElements_type _ _), hnamed']
    | false =>
      simp only [Bool.false_eq_true, if_false, false_or, Follows, Object.setLength_setLength,
        Object.properties_setLength hafter, hnamed]
      cases hlength : lengthOfValue env v with
      | none => simp
      | some n =>
        simp only [Option.bind_some, Option.some.injEq]
        constructor
        · intro h
          by_contra hne
          rw [if_neg hne] at h
          cases h
        · rintro rfl
          rw [if_pos rfl, resizedElements_length]

/-- The property `length` in the hash of an array. -/
theorem follows_updateLength {o : Object} (protos : List Object)
    (htype : o.type = .array start)
    (hindex : key.index = none) (hname : key.name = lengthName) (d : Descriptor) :
    Follows (o.properties.define (valueToNumber env) true key d) o
        (updateProperty env o protos key .entry (lengthProperty o.lengthWritable)
          d.toProperty) ↔
      d.FitsLength env start.length o.lengthWritable := by
  have hrefused := lengthProperty_refused start.length o.lengthWritable d
  have houtcome : updateProperty env o protos key .entry (lengthProperty o.lengthWritable)
      d.toProperty =
        if attributesRefused (lengthProperty o.lengthWritable) d.toProperty ||
            fieldsRefused (lengthProperty o.lengthWritable) d.toProperty then
          (.error (cannotRedefine key .entry), o, protos)
        else applyFields env o protos key.name .entry (lengthProperty o.lengthWritable)
          d.toProperty := by
    have hhandler : (lengthProperty o.lengthWritable).type = .handler .arrayLength := rfl
    unfold updateProperty
    simp only [hhandler, reduceCtorEq, if_false]
    cases attributesRefused (lengthProperty o.lengthWritable) d.toProperty <;> rfl
  rw [houtcome, hrefused]
  cases hallows : (lengthData start.length o.lengthWritable).allows d with
  | false =>
    rw [define_length_refused htype hindex hname hallows]
    simp [Follows, Descriptor.FitsLength, hallows]
  | true => exact follows_applyFields htype hindex hname (.refl o) hallows

/-- The property `length` that an array shares with others is copied first. -/
theorem follows_sharedLength {o : Object} (protos : List Object)
    (htype : o.type = .array start)
    (hindex : key.index = none) (hname : key.name = lengthName)
    (hproperty : env.memory.property = true)
    (hsame : o.Same (o.setLength o.lengthWritable)) (d : Descriptor) :
    Follows (o.properties.define (valueToNumber env) true key d) o
        (updateProperty env o protos key .shared (lengthProperty o.lengthWritable)
          d.toProperty) ↔
      (env.memory.insert = true → d.FitsLength env start.length o.lengthWritable) := by
  have hrefused := lengthProperty_refused start.length o.lengthWritable d
  have hcopied : propPrivateCopy env.memory o key.name (lengthProperty o.lengthWritable) =
      if env.memory.insert then
        (.found .entry (lengthProperty o.lengthWritable), o.setLength o.lengthWritable)
      else (.error (.internal "lvlhsh insert failed" []), o) := by
    unfold propPrivateCopy
    rw [hproperty, hname]
    cases env.memory.insert <;> rfl
  have houtcome : updateProperty env o protos key .shared (lengthProperty o.lengthWritable)
      d.toProperty =
        if attributesRefused (lengthProperty o.lengthWritable) d.toProperty then
          (.error (cannotRedefine key .shared), o, protos)
        else if env.memory.insert then
          if fieldsRefused (lengthProperty o.lengthWritable) d.toProperty then
            (.error (cannotRedefine key .shared), o.setLength o.lengthWritable, protos)
          else applyFields env (o.setLength o.lengthWritable) protos key.name .entry
            (lengthProperty o.lengthWritable) d.toProperty
        else (.error (.internal "lvlhsh insert failed" []), o, protos) := by
    have hhandler : (lengthProperty o.lengthWritable).type = .handler .arrayLength := rfl
    unfold updateProperty
    simp only [hhandler, hcopied, if_true]
    cases env.memory.insert <;> rfl
  rw [houtcome]
  cases hallows : (lengthData start.length o.lengthWritable).allows d with
  | false =>
    rw [define_length_refused htype hindex hname hallows]
    simp only [Descriptor.FitsLength, hallows, Bool.false_eq_true, false_implies, implies_true,
      iff_true]
    split_ifs
    · exact ⟨Or.inl rfl, rfl⟩
    · exact ⟨Or.inl rfl, hsame.properties⟩
    · rename_i hattributes hinsert hfields
      simp [hattributes, hfields, hallows] at hrefused
    · exact ⟨Or.inl rfl, rfl⟩
  | true =>
    rw [hallows, Bool.not_true, Bool.or_eq_false_iff] at hrefused
    rw [hrefused.1, hrefused.2]
    cases hinsert : env.memory.insert with
    | false => simp [Follows, Error.OutOfMemory]
    | true => simpa using follows_applyFields htype hindex hname hsame hallows

/-- The definition of the length of an array. -/
theorem PlainObject.follows_length {o : PlainObject} (htype : o.type = .array start)
    (hindex : key.index = none) (hname : key.name = lengthName) (hintact : Intact desc) :
    Follows ((toPropertyDescriptor reading desc).bind
        (o.properties.define (valueToNumber env) true key)) o.toObject
        (objectPropDefine env reading o.toObject protos key (.descriptor desc)) ↔
      (env.memory.property = true → ∀ d, toPropertyDescriptor reading desc = some d →
        (env.memory.insert = true ∨ (o.hash.lookup lengthName).isSome = true) →
        d.FitsLength env start.length o.lengthWritable) := by
  obtain ⟨writable, hfind⟩ := o.length start htype
  have hwritable : o.lengthWritable = writable := by
    unfold Object.lengthWritable
    rw [hfind]
    simp [lengthProperty]
  have howner : ownQuery env.memory .set key o.toObject =
      hashQuery env.memory lengthName o.toObject := by
    unfold ownQuery
    rw [htype, hindex, hname]
  rw [← hwritable] at hfind
  cases hhash : o.hash.lookup lengthName with
  | some prev =>
    have hprev : prev.type ≠ .whiteout ∧ prev = lengthProperty o.lengthWritable := by
      unfold Object.find at hfind
      rw [hhash] at hfind
      by_cases hwhite : prev.type = .whiteout
      · simp [hwhite] at hfind
      · exact ⟨hwhite, by simpa [hwhite] using hfind⟩
    obtain ⟨hlive, rfl⟩ := hprev
    have hquery : objectPropertyQuery env.memory .set key true o.toObject protos =
        ⟨.found true .entry (lengthProperty o.lengthWritable), false, o.toObject, protos⟩ := by
      unfold objectPropertyQuery
      rw [howner]
      simp [hashQuery, hhash, hlive]
    rw [follows_objectPropDefine hintact hquery (by rintro e ⟨⟩)]
    apply forall_congr'
    intro hproperty
    apply forall₂_congr
    intro d hd
    simpa using follows_updateLength protos htype hindex hname d
  | none =>
    have hshared : o.sharedHash.lookup lengthName = some (lengthProperty o.lengthWritable) := by
      unfold Object.find at hfind
      rw [hhash] at hfind
      exact hfind
    have hsame : o.Same (o.setLength o.lengthWritable) := by
      apply Object.setProperty_same hfind
      · rintro ⟨⟩
      · intro entry hentry
        rw [hhash] at hentry
        cases hentry
    have hquery : objectPropertyQuery env.memory .set key true o.toObject protos =
        ⟨.found true .shared (lengthProperty o.lengthWritable), false, o.toObject, protos⟩ := by
      unfold objectPropertyQuery
      rw [howner]
      simp [hashQuery, hhash, hshared, Property.postponed, lengthProperty]
    rw [follows_objectPropDefine hintact hquery (by rintro e ⟨⟩)]
    apply forall_congr'
    intro hproperty
    apply forall₂_congr
    intro d hd
    simpa using follows_sharedLength protos htype hindex hname hproperty hsame d

/-! ## Definitions -/

/-- The descriptor is one that the code merges into a property in a hash as ECMAScript does. -/
def ConformsNamed (env : Env) (reading : Reading) (o : Object) (name : Name)
    (desc : List Object) : Prop :=
  env.memory.property = true → ∀ d, toPropertyDescriptor reading desc = some d →
    ∀ p, o.named name = some p → ¬(p.allows d = true ∧ p.Confuses d)

/-- When the code defines a property as ECMAScript does: the element of an array gets the value and
the attributes of a new one, a length that may not be written gets no other value, and no value
that must stay is `NaN` or a zero for which the descriptor has `NaN` or the other zero. Where an
array has to be longer, the descriptor is one and may make it longer. Nothing that ECMAScript
allows is defined on an object that is not extensible. -/
def Conforms (env : Env) (reading : Reading) (o : Object) (key : PropertyKey)
    (desc : List Object) : Prop :=
  if o.extensible then
    match o.type, key.index with
    | .array start, some i =>
      if i < start.length then
        env.memory.property = true → ∀ d, toPropertyDescriptor reading desc = some d →
          d.FitsElement ((start[i]?).getD none)
      else
        ∀ stale, env.memory.expand start (i - start.length + 1) = some stale →
          env.memory.property = true ∧ o.lengthWritable = true ∧
            ∃ d, toPropertyDescriptor reading desc = some d ∧ d.FitsElement none
    | .array start, none =>
      if key.name = lengthName then
        env.memory.property = true → ∀ d, toPropertyDescriptor reading desc = some d →
          (env.memory.insert = true ∨ (o.hash.lookup lengthName).isSome = true) →
          d.FitsLength env start.length o.lengthWritable
      else ConformsNamed env reading o key.name desc
    | _, _ => ConformsNamed env reading o key.name desc
  else expectedProperties env reading o (.ok key) (some desc) = none

/-- A definition with a descriptor that was not deleted from. -/
theorem PlainObject.follows_iff (o : PlainObject) (hextensible : o.extensible = true)
    (hintact : Intact desc) :
    Follows (expectedProperties env reading o.toObject (.ok key) (some desc)) o.toObject
        (objectPropDefine env reading o.toObject protos key (.descriptor desc)) ↔
      Conforms env reading o.toObject key desc := by
  unfold expectedProperties Conforms
  rw [hextensible]
  simp only [if_true]
  cases htype : o.type with
  | object =>
    apply o.follows_hashes _ hintact
    intro start hstart
    rw [htype] at hstart
    cases hstart
  | array start =>
    cases hindex : key.index with
    | some i =>
      dsimp only
      by_cases hlt : i < start.length
      · rw [if_pos hlt]
        exact follows_element htype hindex hlt hintact
      · rw [if_neg hlt]
        exact follows_grown htype hindex (by omega) hintact
    | none =>
      dsimp only
      by_cases hname : key.name = lengthName
      · rw [if_pos hname]
        exact o.follows_length htype hindex hname hintact
      · rw [if_neg hname]
        apply o.follows_hashes _ hintact
        intro start' _
        exact ⟨hindex, hname⟩
  | string value => exact absurd htype (o.not_string value)

/-- `Object.defineProperty()` throws unless it has a key and a descriptor. -/
theorem follows_of_missing {o : Object} {name : Except Error PropertyKey}
    {desc : Option (List Object)}
    (h : ∀ key descriptor, ¬(name = .ok key ∧ desc = some descriptor)) :
    Follows (expectedProperties env reading o name desc) o
      (objectDefineProperty env reading o protos name desc) := by
  unfold objectDefineProperty expectedProperties
  cases o.extensible with
  | false =>
    cases name with
    | error e => exact ⟨Or.inl rfl, rfl⟩
    | ok key =>
      cases desc with
      | none => exact ⟨Or.inl rfl, rfl⟩
      | some descriptor => exact absurd ⟨rfl, rfl⟩ (h key descriptor)
  | true =>
    cases name with
    | error e => cases desc <;> exact ⟨Or.inl rfl, rfl⟩
    | ok key =>
      cases desc with
      | none => exact ⟨Or.inl rfl, rfl⟩
      | some descriptor => exact absurd ⟨rfl, rfl⟩ (h key descriptor)

/-- `Object.defineProperty()` of an object that is not extensible throws. -/
theorem follows_of_not_extensible {o : Object} (h : o.extensible = false) :
    Follows (expectedProperties env reading o (.ok key) (some desc)) o
        (objectDefineProperty env reading o protos (.ok key) (some desc)) ↔
      Conforms env reading o key desc := by
  unfold objectDefineProperty Conforms
  rw [h]
  simp [Follows, Error.OutOfMemory]

/-- `Object.defineProperty()` does what ECMAScript says if no field of the descriptor was deleted
and the definition conforms. With such a descriptor it does not otherwise. -/
theorem objectDefineProperty_iff (env : Env) (reading : Reading) (o : PlainObject)
    (protos : List Object) (name : Except Error PropertyKey) (desc : Option (List Object)) :
    ((∀ key descriptor, name = .ok key → desc = some descriptor →
        Intact descriptor ∧ Conforms env reading o.toObject key descriptor) →
      Follows (expectedProperties env reading o.toObject name desc) o.toObject
        (objectDefineProperty env reading o.toObject protos name desc)) ∧
    (Follows (expectedProperties env reading o.toObject name desc) o.toObject
        (objectDefineProperty env reading o.toObject protos name desc) →
      ∀ key descriptor, name = .ok key → desc = some descriptor → Intact descriptor →
        Conforms env reading o.toObject key descriptor) := by
  have hcode : ∀ key descriptor, o.extensible = true →
      objectDefineProperty env reading o.toObject protos (.ok key) (some descriptor) =
        objectPropDefine env reading o.toObject protos key (.descriptor descriptor) := by
    intro key descriptor hextensible
    unfold objectDefineProperty
    rw [hextensible]
    rfl
  have hiff : ∀ key descriptor, Intact descriptor →
      (Follows (expectedProperties env reading o.toObject (.ok key) (some descriptor)) o.toObject
        (objectDefineProperty env reading o.toObject protos (.ok key) (some descriptor)) ↔
      Conforms env reading o.toObject key descriptor) := by
    intro key descriptor hintact
    cases hextensible : o.extensible with
    | false => exact follows_of_not_extensible hextensible
    | true =>
      rw [hcode key descriptor hextensible]
      exact o.follows_iff hextensible hintact
  constructor
  · intro h
    by_cases hboth : ∃ key descriptor, name = .ok key ∧ desc = some descriptor
    · obtain ⟨key, descriptor, rfl, rfl⟩ := hboth
      obtain ⟨hintact, hconforms⟩ := h key descriptor rfl rfl
      exact (hiff key descriptor hintact).mpr hconforms
    · apply follows_of_missing
      intro key descriptor hpair
      exact hboth ⟨key, descriptor, hpair⟩
  · rintro hfollows key descriptor rfl rfl hintact
    exact (hiff key descriptor hintact).mp hfollows

/-! ## An array that loses an element -/

/-- The hash that arrays share. -/
def arrayHash : Hash := AList.insert lengthName (lengthProperty true) ∅

theorem arrayHash_lookup (name : Name) : arrayHash.lookup name =
    if name = lengthName then some (lengthProperty true) else none := by
  by_cases hname : name = lengthName
  · subst hname
    rw [if_pos rfl]
    exact AList.lookup_insert _
  · rw [if_neg hname]
    exact (AList.lookup_insert_ne hname).trans (AList.lookup_empty name)

theorem arrayHash_live (name : Name) (prop : Property) (h : arrayHash.lookup name = some prop) :
    prop.type ≠ .whiteout := by
  rw [arrayHash_lookup] at h
  split_ifs at h
  obtain rfl := Option.some.inj h
  rintro ⟨⟩

theorem array_ne_string (start : List (Option Value)) (value : List Name) :
    ObjectType.array start ≠ .string value := by
  rintro ⟨⟩

theorem array_string_length (start : List (Option Value)) (value : List Name)
    (h : ObjectType.array start = .string value) : value.length ≤ stringMaxLength :=
  absurd h (array_ne_string start value)

/-- The array of these elements, as an object. -/
def arrayObject (start : List (Option Value)) : Object where
  type := .array start
  hash := ∅
  sharedHash := arrayHash
  extensible := true
  shared_live := arrayHash_live
  string_length := array_string_length start

theorem arrayObject_shared (start : List (Option Value)) (name : Name) (prop : Property)
    (h : arrayHash.lookup name = some prop) :
    (∃ start', (arrayObject start).type = .array start') ∧ name = lengthName := by
  rw [arrayHash_lookup] at h
  split_ifs at h with hname
  exact ⟨⟨start, rfl⟩, hname⟩

theorem arrayObject_find (start : List (Option Value)) :
    (arrayObject start).find lengthName = some (lengthProperty true) := by
  unfold Object.find arrayObject
  rw [AList.lookup_empty]
  simp only [arrayHash_lookup, if_true]

theorem arrayObject_length (start start' : List (Option Value))
    (_ : (arrayObject start).type = .array start') :
    ∃ writable, (arrayObject start).find lengthName = some (lengthProperty writable) :=
  ⟨true, arrayObject_find start⟩

theorem arrayObject_kept (start : List (Option Value)) (name : Name) (prop : Property)
    (h : (arrayObject start).hash.lookup name = some prop) (_ : prop.type ≠ .whiteout) :
    (∃ start', (arrayObject start).type = .array start') ∧ name = lengthName ∨
      ∃ p, Kept prop p := by
  have hnone : (arrayObject start).hash.lookup name = none := AList.lookup_empty name
  rw [hnone] at h
  cases h

/-- The array of these elements. -/
def arrayOf (start : List (Option Value)) : PlainObject where
  toObject := arrayObject start
  not_string := array_ne_string start
  kept := arrayObject_kept start
  shared := arrayObject_shared start
  length := arrayObject_length start

/-- `Object.defineProperty([true], "0", {})` makes the element `undefined`. -/
theorem not_objectDefineProperty_follows :
    ¬∀ (env : Env) (reading : Reading) (o : PlainObject) (protos : List Object)
      (name : Except Error PropertyKey) (desc : Option (List Object)),
      Follows (expectedProperties env reading o.toObject name desc) o.toObject
        (objectDefineProperty env reading o.toObject protos name desc) := by
  intro h
  have hempty : ∀ name, readField ⟨fun _ => .ok .undefined, false⟩ name
      [plain .object true object_ne_string] = .ok none := by
    intro name
    simp [readField, Object.find, plain]
  have hintact : Intact [plain .object true object_ne_string] := by
    constructor <;> simp [FieldIntact, plain]
  have hfollows := h ample ⟨fun _ => .ok .undefined, false⟩ (arrayOf [some (.boolean true)]) []
    (.ok ⟨"0".toUTF8.toList, some 0⟩) (some [plain .object true object_ne_string])
  have hconforms := ((arrayOf [some (.boolean true)]).follows_iff rfl hintact).mp hfollows
  have hdescriptor : ∃ d : Descriptor, toPropertyDescriptor ⟨fun _ => .ok .undefined, false⟩
      [plain .object true object_ne_string] = some d ∧ d.value = none := by
    unfold toPropertyDescriptor
    simp [hempty]
  obtain ⟨d, hd, hvalue⟩ := hdescriptor
  have hfits : d.FitsElement (some (.boolean true)) := hconforms rfl d hd
  have hundefined := hfits.2.2.2.2 hvalue
  cases hundefined

end Njs.Objects
