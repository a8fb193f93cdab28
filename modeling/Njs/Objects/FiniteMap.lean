import Mathlib.Data.List.Perm.Basic
import Njs.Objects.Outcomes

/-!
# Own properties as finite maps

The objects of a chain whose properties are made by assignments are maps from names to
values. The hash of such an object has a property for each name of its map, and white-outs
for names that were deleted.
-/

namespace Njs.Objects

variable {env : Env} {memory : Memory} {query : Query} {key : PropertyKey} {o : Object}
  {protos : List Object} {setval v : Value}

/-! ## Enumeration -/

/-- The order in which `njs_lvlhsh_each` visits the properties of a hash. -/
structure Order where
  each : Hash → List (Sigma fun _ : Name => Property)
  perm : ∀ hash, (each hash).Perm hash.entries

/-- The property in the hash is listed. -/
def listed (all : Bool) (prop : Property) : Bool :=
  prop.type ≠ .whiteout && (prop.enumerable.holds || all)

/-- The property in the shared hash is listed. -/
def sharedListed (o : Object) (all : Bool) (name : Name) (prop : Property) : Bool :=
  (o.hash.lookup name).isNone && (prop.enumerable.holds || all)

/-- `njs_object_own_enumerate_object_length` of an object. -/
def ownEnumerateObjectLength (order : Order) (o : Object) (all : Bool) : ℕ :=
  (order.each o.hash).countP (fun entry => listed all entry.2) +
    (order.each o.sharedHash).countP (fun entry => sharedListed o all entry.1 entry.2)

/-- `njs_object_own_enumerate_object` of an object, for `NJS_ENUM_KEYS`. -/
def ownEnumerateObject (order : Order) (o : Object) (all : Bool) : List Name :=
  ((order.each o.hash).filter fun entry => listed all entry.2).map Sigma.fst ++
    ((order.each o.sharedHash).filter fun entry => sharedListed o all entry.1 entry.2).map
      Sigma.fst

/-! ## Runs -/

/-- An operation on an object of the chain. -/
inductive MapOp
  | set (key : PropertyKey) (setval : Value)
  | get (key : PropertyKey)
  | delete (key : PropertyKey)
  | keys (order : Order) (all : Bool)

/-- What an operation returns. -/
inductive Output
  | set (result : SetResult)
  | get (result : GetResult)
  | delete (result : DeleteResult)
  /-- The number of keys that were counted, and those that were written. -/
  | keys (length : ℕ) (keys : List Name)

/-- An operation on an object and its prototypes. -/
def perform (env : Env) (op : MapOp) (o : Object) (protos : List Object) :
    Output × Object × List Object :=
  match op with
  | .set key setval =>
    let (result, o, protos) := valuePropertySet env o protos key setval
    (.set result, o, protos)
  | .get key =>
    let (result, o, protos) := valueProperty env o protos key
    (.get result, o, protos)
  | .delete key =>
    let (result, o) := valuePropertyDelete env o protos key
    (.delete result, o, protos)
  | .keys order all =>
    (.keys (ownEnumerateObjectLength order o all) (ownEnumerateObject order o all), o, protos)

/-- An operation on an object of the chain, which has the rest of it as prototypes. -/
def performAt (env : Env) (op : MapOp) : ℕ → List Object → Option Output × List Object
  | 0, o :: protos =>
    let (output, o, protos) := perform env op o protos
    (some output, o :: protos)
  | level + 1, o :: protos =>
    let (output, protos) := performAt env op level protos
    (output, o :: protos)
  | _, [] => (none, [])

/-- An operation in a run, with the object of the chain that it is directed at. -/
structure Call where
  env : Env
  level : ℕ
  op : MapOp

/-- What the operations of a run return. -/
def runCalls : List Object → List Call → List (Option Output)
  | _, [] => []
  | chain, call :: calls =>
    let (output, chain) := performAt call.env call.op call.level chain
    output :: runCalls chain calls

/-! ## The maps -/

/-- The own properties of an object, by their names. -/
abbrev OwnMap := Name → Option Value

/-- The value on the nearest object that has one. -/
def nearest (name : Name) (maps : List OwnMap) : Option Value := maps.findSome? (· name)

/-- What an operation on the first of the maps returns and makes of it. -/
inductive MapStep (memory : Memory) (m : OwnMap) (maps : List OwnMap) :
    MapOp → Output → OwnMap → Prop
  | set (key : PropertyKey) (setval : Value) :
    MapStep memory m maps (.set key setval) (.set .ok) (Function.update m key.name (some setval))
  /-- There is no memory for the property. -/
  | refused (key : PropertyKey) (setval : Value) (e : Error)
    (hmemory : memory.property = false ∨ memory.insert = false) :
    MapStep memory m maps (.set key setval) (.set (.error e)) m
  | get (key : PropertyKey) (v : Value) (h : nearest key.name (m :: maps) = some v) :
    MapStep memory m maps (.get key) (.get (.ok v)) m
  | absent (key : PropertyKey) (h : nearest key.name (m :: maps) = none) :
    MapStep memory m maps (.get key) (.get .declined) m
  | delete (key : PropertyKey) (v : Value) (h : m key.name = some v) :
    MapStep memory m maps (.delete key) (.delete (.ok (some v)))
      (Function.update m key.name none)
  | deleteAbsent (key : PropertyKey) (h : m key.name = none) :
    MapStep memory m maps (.delete key) (.delete .declined) m
  | keys (order : Order) (all : Bool) (names : List Name) (hnodup : names.Nodup)
    (hmem : ∀ name, name ∈ names ↔ (m name).isSome = true) :
    MapStep memory m maps (.keys order all) (.keys names.length names) m

/-- What an operation on one of the maps returns and makes of them. -/
inductive MapStepAt (memory : Memory) (op : MapOp) :
    ℕ → List OwnMap → Option Output → List OwnMap → Prop
  | here (m m' : OwnMap) (maps : List OwnMap) (output : Output)
    (h : MapStep memory m maps op output m') :
    MapStepAt memory op 0 (m :: maps) (some output) (m' :: maps)
  | there (level : ℕ) (m : OwnMap) (maps maps' : List OwnMap) (output : Option Output)
    (h : MapStepAt memory op level maps output maps') :
    MapStepAt memory op (level + 1) (m :: maps) output (m :: maps')
  | nowhere (level : ℕ) : MapStepAt memory op level [] none []

/-- The outputs are those of operations on maps. -/
inductive MapRun : List OwnMap → List Call → List (Option Output) → Prop
  | nil (maps : List OwnMap) : MapRun maps [] []
  | cons (maps maps' : List OwnMap) (call : Call) (calls : List Call) (output : Option Output)
    (outputs : List (Option Output))
    (hstep : MapStepAt call.env.memory call.op call.level maps output maps')
    (hrun : MapRun maps' calls outputs) : MapRun maps (call :: calls) (output :: outputs)

/-! ## Objects and maps -/

/-- The white-out of a property that was made by an assignment. -/
def assignedWhiteout : Property := deleted (objectPropAlloc none .yes)

/-- The own properties of the object are those of the map. -/
structure Represents (m : OwnMap) (o : Object) : Prop where
  type : o.type = .object
  shared : o.sharedHash = ∅
  extensible : o.extensible = true
  live : ∀ name v, m name = some v → o.hash.lookup name = some (objectPropAlloc (some v) .yes)
  absent : ∀ name, m name = none →
    o.hash.lookup name = none ∨ o.hash.lookup name = some assignedWhiteout

variable {m : OwnMap} {maps : List OwnMap}

theorem represents_empty : Represents (fun _ => none) (plain .object true fun _ => nofun) where
  type := rfl
  shared := rfl
  extensible := rfl
  live _ _ h := nomatch h
  absent _ _ := Or.inl rfl

/-- The lookup in an object of the chain does not change it. -/
theorem Represents.lookup (h : Represents m o) (memory : Memory) (query : Query)
    (key : PropertyKey) :
    match m key.name with
    | some v => ownQuery memory query key o = (.found .entry (objectPropAlloc (some v) .yes), o)
    | none => (o.hash.lookup key.name = none ∧ ownQuery memory query key o = (.absent, o)) ∨
        (o.hash.lookup key.name = some assignedWhiteout ∧
          ownQuery memory query key o = (.whiteout, o)) := by
  have hquery : ownQuery memory query key o = hashQuery memory key.name o := by
    simp only [ownQuery, h.type]
  rw [hquery]
  cases hm : m key.name with
  | some v =>
    simp only [hashQuery, h.live _ _ hm]
    rfl
  | none =>
    simp only
    rcases h.absent _ hm with hnone | hwhite
    · refine Or.inl ⟨hnone, ?_⟩
      simp only [hashQuery, hnone, h.shared, AList.lookup_empty]
    · refine Or.inr ⟨hwhite, ?_⟩
      simp only [hashQuery, hwhite]
      rfl

/-- The object after an assignment. -/
theorem Represents.update (h : Represents m o) (name : Name) (v : Value) :
    Represents (Function.update m name (some v))
      (o.setProperty name (objectPropAlloc (some v) .yes)) where
  type := h.type
  shared := h.shared
  extensible := h.extensible
  live other w hw := by
    by_cases hother : other = name
    · subst hother
      rw [Function.update_self] at hw
      rw [← Option.some.inj hw]
      exact AList.lookup_insert _
    · rw [Function.update_of_ne hother] at hw
      rw [o.setProperty_lookup_of_ne _ hother]
      exact h.live other w hw
  absent other hother := by
    by_cases hname : other = name
    · subst hname
      rw [Function.update_self] at hother
      cases hother
    · rw [Function.update_of_ne hname] at hother
      rw [o.setProperty_lookup_of_ne _ hname]
      exact h.absent other hother

/-- The object after a deletion. -/
theorem Represents.delete (h : Represents m o) (name : Name) :
    Represents (Function.update m name none) (o.setProperty name assignedWhiteout) where
  type := h.type
  shared := h.shared
  extensible := h.extensible
  live other w hw := by
    by_cases hother : other = name
    · subst hother
      rw [Function.update_self] at hw
      cases hw
    · rw [Function.update_of_ne hother] at hw
      rw [o.setProperty_lookup_of_ne _ hother]
      exact h.live other w hw
  absent other hother := by
    by_cases hname : other = name
    · subst hname
      exact Or.inr (AList.lookup_insert _)
    · rw [Function.update_of_ne hname] at hother
      rw [o.setProperty_lookup_of_ne _ hname]
      exact h.absent other hother

/-- The walk along the prototypes finds the nearest value. -/
theorem prototypeQuery_represents (memory : Memory) (query : Query) (key : PropertyKey)
    (h : List.Forall₂ Represents maps protos) :
    prototypeQuery memory query key protos =
      (match nearest key.name maps with
        | some v => .found false .entry (objectPropAlloc (some v) .yes)
        | none => .declined, protos) := by
  induction h with
  | nil => rfl
  | @cons m o maps protos ho _ ih =>
    have hown := ho.lookup memory query key
    unfold prototypeQuery nearest
    rw [List.findSome?_cons]
    cases hm : m key.name with
    | some v =>
      rw [hm] at hown
      simp only [hown]
    | none =>
      rw [hm] at hown
      rcases hown with ⟨-, hquery⟩ | ⟨-, hquery⟩
      · simp only [hquery, ih]
        rfl
      · simp only [hquery, ih]
        rfl

/-- The lookup of a name that the object does not have. -/
theorem objectPropertyQuery_represents (h : Represents m o)
    (hprotos : List.Forall₂ Represents maps protos) (hm : m key.name = none) (memory : Memory)
    (query : Query) :
    objectPropertyQuery memory query key false o protos =
      ⟨match nearest key.name maps with
        | some v => .found false .entry (objectPropAlloc (some v) .yes)
        | none => .declined, (o.hash.lookup key.name).isSome, o, protos⟩ := by
  have hlookup := h.lookup memory query key
  rw [hm] at hlookup
  have hproto := prototypeQuery_represents memory query key hprotos
  rcases hlookup with ⟨hnone, hquery⟩ | ⟨hwhite, hquery⟩
  · simp only [objectPropertyQuery, hquery, hproto, hnone, Bool.false_eq_true, if_false,
      Option.isSome_none]
  · simp only [objectPropertyQuery, hquery, hproto, hwhite, Bool.false_eq_true, if_false,
      Option.isSome_some]

/-! ## Operations -/

/-- The end of an assignment that adds a property. -/
theorem addProperty_represents {q : QueryResult} (h : Represents m o) (hm : m key.name = none)
    (hobject : q.object = o) (hprotos : q.protos = protos)
    (hwhite : q.ownWhiteout = (o.hash.lookup key.name).isSome) :
    ∃ result m', addProperty env key setval q =
        (result, (addProperty env key setval q).2.1, protos) ∧
      MapStep env.memory m maps (.set key setval) (.set result) m' ∧
      Represents m' (addProperty env key setval q).2.1 := by
  have hupdate := h.update key.name setval
  unfold addProperty
  rw [hobject, hwhite, hprotos]
  rcases h.absent _ hm with hnone | hentry
  · rw [hnone]
    simp only [Option.isSome_none, h.extensible, Bool.not_true, Bool.false_eq_true, if_false]
    by_cases hproperty : env.memory.property = true
    · by_cases hinsert : env.memory.insert = true
      · simp only [hproperty, hinsert, Bool.not_true, Bool.false_eq_true, if_false]
        exact ⟨_, _, rfl, .set key setval, hupdate⟩
      · rw [Bool.not_eq_true] at hinsert
        simp only [hproperty, hinsert, Bool.not_true, Bool.not_false, Bool.false_eq_true, if_false,
          if_true]
        exact ⟨_, _, rfl, .refused key setval _ (Or.inr hinsert), h⟩
    · rw [Bool.not_eq_true] at hproperty
      simp only [hproperty, Bool.not_false, if_true]
      exact ⟨_, _, rfl, .refused key setval _ (Or.inl hproperty), h⟩
  · rw [hentry]
    simp only [Option.isSome_some]
    exact ⟨_, _, rfl, .set key setval, hupdate⟩

/-- An assignment. -/
theorem set_represents (h : Represents m o) (hprotos : List.Forall₂ Represents maps protos) :
    ∃ result o' m', valuePropertySet env o protos key setval = (result, o', protos) ∧
      MapStep env.memory m maps (.set key setval) (.set result) m' ∧ Represents m' o' := by
  have hlookup := h.lookup env.memory .set key
  cases hm : m key.name with
  | some v =>
    rw [hm] at hlookup
    rw [valuePropertySet_entry hlookup rfl rfl rfl]
    exact ⟨_, _, _, rfl, .set key setval, h.update key.name setval⟩
  | none =>
    have hq := objectPropertyQuery_represents h hprotos hm env.memory .set
    obtain ⟨result, m', hadd, hstep, hafter⟩ := addProperty_represents
      (q := ⟨_, (o.hash.lookup key.name).isSome, o, protos⟩) h hm
      rfl rfl rfl
    refine ⟨result, _, m', ?_, hstep, hafter⟩
    rw [← hadd]
    unfold valuePropertySet
    rw [hq]
    cases nearest key.name maps with
    | some v => rfl
    | none => rfl

/-- A read. -/
theorem get_represents (h : Represents m o) (hprotos : List.Forall₂ Represents maps protos) :
    ∃ result, valueProperty env o protos key = (result, o, protos) ∧
      MapStep env.memory m maps (.get key) (.get result) m := by
  cases hm : m key.name with
  | some v =>
    have hlookup := h.lookup env.memory .get key
    rw [hm] at hlookup
    have hnearest : nearest key.name (m :: maps) = some v := by
      rw [nearest, List.findSome?_cons, hm]
    refine ⟨.ok v, ?_, .get key v hnearest⟩
    simp only [valueProperty, objectPropertyQuery, hlookup]
    rfl
  | none =>
    have hq := objectPropertyQuery_represents h hprotos hm env.memory .get
    have hrest : nearest key.name (m :: maps) = nearest key.name maps := by
      rw [nearest, List.findSome?_cons, hm]
      rfl
    cases hnearest : nearest key.name maps with
    | some v =>
      rw [hnearest] at hrest hq
      refine ⟨.ok v, ?_, .get key v hrest⟩
      simp only [valueProperty, hq]
      rfl
    | none =>
      rw [hnearest] at hrest hq
      refine ⟨.declined, ?_, .absent key hrest⟩
      simp only [valueProperty, hq]

/-- A deletion. -/
theorem delete_represents (h : Represents m o) :
    ∃ result o' m', valuePropertyDelete env o protos key = (result, o') ∧
      MapStep env.memory m maps (.delete key) (.delete result) m' ∧ Represents m' o' := by
  have hlookup := h.lookup env.memory .delete key
  cases hm : m key.name with
  | some v =>
    rw [hm] at hlookup
    refine ⟨.ok (some v), o.setProperty key.name assignedWhiteout, _, ?_, .delete key v hm,
      h.delete key.name⟩
    simp only [valuePropertyDelete, objectPropertyQuery, hlookup]
    rfl
  | none =>
    rw [hm] at hlookup
    refine ⟨.declined, o, m, ?_, .deleteAbsent key hm, h⟩
    rcases hlookup with ⟨-, hquery⟩ | ⟨-, hquery⟩
    · simp only [valuePropertyDelete, objectPropertyQuery, hquery, if_true]
    · simp only [valuePropertyDelete, objectPropertyQuery, hquery, if_true]

/-- There is nothing in the shared hash. -/
theorem ownEnumerateObject_represents (h : Represents m o) (order : Order) (all : Bool) :
    ownEnumerateObject order o all =
      ((order.each o.hash).filter fun entry => listed all entry.2).map Sigma.fst := by
  have hnil : order.each o.sharedHash = [] := by
    have hperm := order.perm o.sharedHash
    rw [h.shared, AList.empty_entries] at hperm
    rw [h.shared]
    exact hperm.eq_nil
  unfold ownEnumerateObject
  rw [hnil]
  exact List.append_nil _

/-- The keys are those that the map has. -/
theorem mem_ownEnumerateObject (h : Represents m o) (order : Order) (all : Bool) (name : Name) :
    name ∈ ownEnumerateObject order o all ↔ (m name).isSome = true := by
  have hmem : name ∈ ownEnumerateObject order o all ↔
      ∃ prop, o.hash.lookup name = some prop ∧ listed all prop = true := by
    rw [ownEnumerateObject_represents h]
    simp only [List.mem_map, List.mem_filter, (order.perm o.hash).mem_iff]
    constructor
    · rintro ⟨⟨other, prop⟩, ⟨hentry, hlisted⟩, rfl⟩
      exact ⟨prop, AList.mem_lookup_iff.mpr hentry, hlisted⟩
    · rintro ⟨prop, hlookup, hlisted⟩
      exact ⟨⟨name, prop⟩, ⟨AList.mem_lookup_iff.mp hlookup, hlisted⟩, rfl⟩
  rw [hmem]
  cases hm : m name with
  | some v => exact ⟨fun _ => rfl, fun _ => ⟨_, h.live name v hm, rfl⟩⟩
  | none =>
    refine ⟨?_, nofun⟩
    rintro ⟨prop, hlookup, hlisted⟩
    rcases h.absent name hm with hnone | hwhite
    · rw [hnone] at hlookup
      cases hlookup
    · rw [hwhite] at hlookup
      obtain rfl := Option.some.inj hlookup
      cases hlisted

/-- The keys are listed once. -/
theorem ownEnumerateObject_nodup (h : Represents m o) (order : Order) (all : Bool) :
    (ownEnumerateObject order o all).Nodup := by
  rw [ownEnumerateObject_represents h]
  have hkeys : ((order.each o.hash).map Sigma.fst).Nodup :=
    ((order.perm o.hash).map Sigma.fst).nodup_iff.mpr o.hash.nodupKeys
  exact hkeys.sublist (List.filter_sublist.map _)

theorem ownEnumerateObjectLength_eq (order : Order) (o : Object) (all : Bool) :
    ownEnumerateObjectLength order o all = (ownEnumerateObject order o all).length := by
  simp only [ownEnumerateObjectLength, ownEnumerateObject, List.length_append, List.length_map,
    List.countP_eq_length_filter]

/-- An operation on an object of the chain. -/
theorem perform_represents (op : MapOp) (h : Represents m o)
    (hprotos : List.Forall₂ Represents maps protos) :
    ∃ output o' m', perform env op o protos = (output, o', protos) ∧
      MapStep env.memory m maps op output m' ∧ Represents m' o' := by
  cases op with
  | set key setval =>
    obtain ⟨result, o', m', hset, hstep, hafter⟩ := set_represents h hprotos
    refine ⟨.set result, o', m', ?_, hstep, hafter⟩
    simp only [perform, hset]
  | get key =>
    obtain ⟨result, hget, hstep⟩ := get_represents h hprotos
    refine ⟨.get result, o, m, ?_, hstep, h⟩
    simp only [perform, hget]
  | delete key =>
    obtain ⟨result, o', m', hdelete, hstep, hafter⟩ := @delete_represents _ _ _ protos _ _ h
    refine ⟨.delete result, o', m', ?_, hstep, hafter⟩
    simp only [perform, hdelete]
  | keys order all =>
    refine ⟨_, o, m, rfl, ?_, h⟩
    rw [ownEnumerateObjectLength_eq]
    exact .keys order all _ (ownEnumerateObject_nodup h order all)
      (mem_ownEnumerateObject h order all)

/-- An operation on one of the objects of the chain. -/
theorem performAt_represents (env : Env) (op : MapOp) (level : ℕ) {chain : List Object}
    (h : List.Forall₂ Represents maps chain) :
    ∃ maps', MapStepAt env.memory op level maps (performAt env op level chain).1 maps' ∧
      List.Forall₂ Represents maps' (performAt env op level chain).2 := by
  induction h generalizing level with
  | nil =>
    cases level with
    | zero => exact ⟨[], .nowhere 0, .nil⟩
    | succ level => exact ⟨[], .nowhere (level + 1), .nil⟩
  | @cons m o maps protos ho hprotos ih =>
    cases level with
    | zero =>
      obtain ⟨output, o', m', hperform, hstep, hafter⟩ := @perform_represents env _ _ _ _ op ho
        hprotos
      unfold performAt
      simp only [hperform]
      exact ⟨m' :: maps, .here m m' maps output hstep, .cons hafter hprotos⟩
    | succ level =>
      obtain ⟨maps', hstep, hafter⟩ := ih level
      exact ⟨m :: maps', .there level m maps maps' _ hstep, .cons ho hafter⟩

/-- A run on objects that are maps. -/
theorem runCalls_represents {chain : List Object} (calls : List Call)
    (h : List.Forall₂ Represents maps chain) : MapRun maps calls (runCalls chain calls) := by
  induction calls generalizing maps chain with
  | nil => exact .nil maps
  | cons call calls ih =>
    obtain ⟨maps', hstep, hafter⟩ := performAt_represents call.env call.op call.level h
    exact .cons maps maps' call calls _ _ hstep (ih hafter)

/-- Every run on a chain of objects without properties returns what operations on maps
return. -/
theorem own_properties_are_maps (n : ℕ) (calls : List Call) :
    MapRun (List.replicate n fun _ => none) calls
      (runCalls (List.replicate n (plain .object true fun _ => nofun)) calls) := by
  refine runCalls_represents calls ?_
  induction n with
  | zero => exact .nil
  | succ n ih => exact .cons represents_empty ih

end Njs.Objects
