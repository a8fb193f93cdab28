import Njs.Stringify.Indentation

/-!
# An array as the replacer

The replacer may be an array of property keys. The keys of the wrapper are then those of the array
too, behind the empty key, and so are those of each object. If only the wrapper has a property
with the empty key, and it has no other, each object is written with its properties whose keys
are in the array.
-/

namespace Njs.Stringify

open Njs.Utf8 (code CodePoint)
open Njs.Json (Call Dtoa)

variable {dtoa : AsciiDtoa} {source : Source} {settings : Settings} {space : List UInt8}
  {v w item : Value} {tokens : List Token} {depth : ℕ} {array : List Value} {s : Text}

/-! ## The keys -/

theorem byte_lt_codePointEnd (c : UInt8) : c.toNat < Utf8.codePointEnd :=
  c.toNat_lt.trans (by decide)

/-- The string of some ASCII characters. -/
def asciiText (p : List UInt8) : Text := p.map fun c => ⟨c.toNat, byte_lt_codePointEnd c⟩

/-- `njs_number_to_string`. -/
def numberToString (dtoa : AsciiDtoa) : Number → Text
  | .nan => asciiText [78, 97, 78]
  | .posInfinity => asciiText [73, 110, 102, 105, 110, 105, 116, 121]
  | .negInfinity => asciiText [45, 73, 110, 102, 105, 110, 105, 116, 121]
  | .finite q => asciiText (dtoa.text q)

/-- The property key that an element of the array stands for. -/
def propertyKey (dtoa : AsciiDtoa) : Value → Option Text
  | .objectNumber _ n | .number n => some (numberToString dtoa n)
  | .objectString _ s | .string s => some s
  | _ => none

/-- The loop of `njs_json_stringify_array`. -/
def stringifyArrayLoop (dtoa : AsciiDtoa) (properties : List Text) : List Value → List Text
  | [] => properties
  | v :: array =>
    match propertyKey dtoa v with
    | some s =>
      if s ∈ properties then stringifyArrayLoop dtoa properties array
      else stringifyArrayLoop dtoa (properties ++ [s]) array
    | none => stringifyArrayLoop dtoa properties array

/-- `njs_json_stringify_array`. -/
def stringifyArray (dtoa : AsciiDtoa) (array : List Value) : List Text :=
  stringifyArrayLoop dtoa [[]] array

/-- A list without what is repeated in it. -/
def firsts : List Text → List Text
  | [] => []
  | s :: l => s :: (firsts l).filter (· ≠ s)

/-- The property list of ECMAScript. -/
def propertyList (dtoa : AsciiDtoa) (array : List Value) : List Text :=
  firsts (array.filterMap (propertyKey dtoa))

theorem firsts_nodup (l : List Text) : (firsts l).Nodup := by
  induction l with
  | nil => exact List.nodup_nil
  | cons t l ih =>
    refine List.nodup_cons.mpr ⟨fun h => ?_, ih.filter _⟩
    exact of_decide_eq_true (List.mem_filter.mp h).2 rfl

theorem stringifyArrayLoop_eq (dtoa : AsciiDtoa) (properties : List Text) (array : List Value) :
    stringifyArrayLoop dtoa properties array =
      properties ++ (propertyList dtoa array).filter (· ∉ properties) := by
  induction array generalizing properties with
  | nil => exact (List.append_nil _).symm
  | cons v array ih =>
    rw [stringifyArrayLoop, propertyList]
    cases hkey : propertyKey dtoa v with
    | none =>
      rw [List.filterMap_cons_none hkey]
      exact ih properties
    | some s =>
      rw [List.filterMap_cons_some hkey, firsts]
      simp only
      split_ifs with hmem
      · rw [ih, List.filter_cons_of_neg (by simpa using hmem), List.filter_filter, propertyList]
        refine congrArg _ (List.filter_congr fun t ht => ?_)
        by_cases hts : t = s
        · simp [hts, hmem]
        · simp [hts]
      · rw [ih, List.filter_cons_of_pos (by simpa using hmem), List.filter_filter, propertyList,
          List.append_assoc, List.singleton_append]
        refine congrArg _ (congrArg _ (List.filter_congr fun t ht => ?_))
        by_cases hts : t = s <;> simp [hts]

/-- The empty key comes first, and the others follow in the order of the array. -/
theorem stringifyArray_eq (dtoa : AsciiDtoa) (array : List Value) :
    stringifyArray dtoa array = [] :: (propertyList dtoa array).filter (· ≠ []) := by
  rw [stringifyArray, stringifyArrayLoop_eq]
  simp

/-! ## The objects -/

/-- A value, or what its method `toJSON` returns. -/
def toJsonValue (source : Source) (key : Key) (x : Value) : Value :=
  if x.isObject then (source.toJson x key).getD x else x

/-- What is written for a property that a lookup finds, if it is serializable: the value found is
neither `undefined` nor a function, and what `toJSON()` makes of it is not `undefined`. -/
def propertyValue (source : Source) (holder : Holder) (key : Text) : Option Value :=
  let value := source.get holder key
  if value.isSkipped then none
  else
    let value := toJsonValue source (.name key) value
    if value = .undefined then none else some value

/-- The serializable properties of an object whose keys are in a list, in the order of the list.
A property is found as any lookup does, whether it is inherited and whether it is enumerable. -/
def members (source : Source) (keys : List Text) (o : ℕ) : List (Text × Value) :=
  keys.filterMap fun key => (propertyValue source (.object o) key).map (key, ·)

/-- Those of the properties that are enumerable properties of the object itself. -/
def ownMembers (source : Source) (keys : List Text) (o : ℕ) : List (Text × Value) :=
  (members source keys o).filter fun p => p.1 ∈ source.ownEnumerate (.object o)

/-- The elements of an array that are written. -/
def arrayItems (source : Source) (o : ℕ) : List (Option Text × Value) :=
  (source.elements o).mapIdx fun i x => (none, toJsonValue source (.index i) x)

/-- The tokens of a value in which each object has some members and each array all its elements. -/
def selection (source : Source) (members : ℕ → List (Text × Value)) :
    ℕ → Value → Option (List Token)
  | 0, .object _ => none
  | 0, .array _ => none
  | depth + 1, .object o =>
    bracketed (selection source members depth) Json.beginObject Json.endObject
      ((members o).map fun p => (some p.1, p.2))
  | depth + 1, .array o =>
    bracketed (selection source members depth) Json.beginArray Json.endArray
      (arrayItems source o)
  | _, v => some [.value (appendValue v)]

/-- A value is written inside of another one, or is that one. -/
inductive Within (source : Source) (keys : List Text) (v : Value) : Value → Prop
  | refl : Within source keys v v
  | member {o : ℕ} {p : Text × Value} (h : Within source keys v (.object o))
    (hp : p ∈ members source keys o) : Within source keys v p.2
  | element {o : ℕ} {item : Option Text × Value} (h : Within source keys v (.array o))
    (hitem : item ∈ arrayItems source o) : Within source keys v item.2

/-- The settings of `njs_json_stringify_iterator` if the replacer is an array. -/
def arraySettings (dtoa : AsciiDtoa) (source : Source) (array : List Value)
    (space : List UInt8) : Settings :=
  ⟨source, .keys (stringifyArray dtoa array), space⟩

/-- `JSON.stringify()` with an array as the replacer returns a value with some members for each
object. -/
def Selects (dtoa : AsciiDtoa) (source : Source) (array : List Value) (space : List UInt8)
    (v item : Value) (members : ℕ → List (Text × Value)) : Prop :=
  ∃ tokens, selection source members (Json.maxDepth - 1) item = some tokens ∧
    Stringifies (arraySettings dtoa source array space) dtoa.toDtoa v
      (some (bytes dtoa.toDtoa (layout (arraySettings dtoa source array space) 1 tokens)))

variable {keys : List Text}

theorem reduceOption_map {α β : Type} (f : α → Option β) (l : List α) :
    (l.map f).reduceOption = l.filterMap f := by
  change (l.map f).filterMap id = l.filterMap f
  rw [List.filterMap_map]
  rfl

theorem mapM_congr {α β : Type} {f g : α → Option β} {l : List α} (h : ∀ a ∈ l, f a = g a) :
    l.mapM f = l.mapM g := by
  induction l with
  | nil => rfl
  | cons a l ih =>
    obtain ⟨ha, hl⟩ := List.forall_mem_cons.mp h
    rw [List.mapM_cons, List.mapM_cons, ha, ih hl]

/-- The empty key makes no difference for an object that has no property of that name. -/
theorem filterMap_empty {β : Type} {f : Text → Option β} (h : f [] = none) (keys : List Text) :
    ([] :: keys.filter (· ≠ [])).filterMap f = keys.filterMap f := by
  rw [List.filterMap_cons_none h, List.filterMap_filter]
  apply List.filterMap_congr
  intro key _
  by_cases hkey : key = []
  · simp [hkey, h]
  · simp [hkey]

/-- The keys for which there is something are those of the list, in its order. -/
theorem map_fst_filterMap {β : Type} (f : Text → Option β) (keys : List Text) :
    (keys.filterMap fun key => (f key).map (key, ·)).map Prod.fst =
      keys.filter fun key => (f key).isSome := by
  induction keys with
  | nil => rfl
  | cons key keys ih => cases h : f key <;> simp [h, ih]

theorem entry_eq (dtoa : AsciiDtoa) (holder : Holder) (key : Text) :
    entry (arraySettings dtoa source array space) holder key =
      (propertyValue source holder key).map (some key, ·) := by
  have hsource : (arraySettings dtoa source array space).source = source := rfl
  have hvalue : ∀ x, stringifyReplacer (arraySettings dtoa source array space) holder (.name key)
      (stringifyToJson (arraySettings dtoa source array space) (.name key) x) =
        toJsonValue source (.name key) x := fun x => rfl
  simp only [entry, propertyValue, hsource, hvalue]
  split_ifs <;> rfl

/-- The items of a holder with the keys of the array. -/
theorem slots_keys (dtoa : AsciiDtoa) (holder : Holder) (keys : List Text) :
    (slots (arraySettings dtoa source array space) holder (some keys)).reduceOption =
      keys.filterMap fun key => (propertyValue source holder key).map (some key, ·) := by
  rw [slots, reduceOption_map]
  exact List.filterMap_congr fun key _ => entry_eq dtoa holder key

/-- The items of an object that has no property with the empty key that would be written. -/
theorem slots_object (dtoa : AsciiDtoa) {o : ℕ} (h : propertyValue source (.object o) [] = none) :
    (slots (arraySettings dtoa source array space) (.object o)
        (some (stringifyArray dtoa array))).reduceOption =
      (members source (propertyList dtoa array) o).map fun p => (some p.1, p.2) := by
  have hnone : (propertyValue source (.object o) []).map (some ([] : Text), ·) = none := by
    rw [h]
    rfl
  rw [slots_keys, stringifyArray_eq, members, List.map_filterMap]
  apply (filterMap_empty hnone _).trans
  apply List.filterMap_congr
  intro key _
  rw [Option.map_map]
  rfl

/-- The items of an array. -/
theorem slots_array (dtoa : AsciiDtoa) (o : ℕ) :
    (slots (arraySettings dtoa source array space) (.array o) none).reduceOption =
      arrayItems source o := by
  have hslots : slots (arraySettings dtoa source array space) (.array o) none =
      (arrayItems source o).map some := by
    apply List.ext_getElem?
    intro i
    simp only [slots, arrayItems, List.getElem?_mapIdx, List.getElem?_map, Option.map_map]
    rfl
  rw [hslots, reduceOption_map]
  exact List.filterMap_some

/-- No object inside of a value has a property with the empty key that would be written. -/
def LacksEmpty (source : Source) (keys : List Text) (v : Value) : Prop :=
  ∀ o, Within source keys v (.object o) → propertyValue source (.object o) [] = none

/-- What the iterator writes is the selection of the properties that lookups find. -/
theorem serialize_eq (dtoa : AsciiDtoa)
    (h : LacksEmpty source (propertyList dtoa array) v) (depth : ℕ)
    (hwithin : Within source (propertyList dtoa array) v w) :
    serialize (arraySettings dtoa source array space) depth w =
      selection source (members source (propertyList dtoa array)) depth w := by
  induction depth generalizing w with
  | zero => cases w <;> rfl
  | succ depth ih =>
    cases w with
    | object o =>
      have hparts : ∀ item ∈ (members source (propertyList dtoa array) o).map
          (fun p => (some p.1, p.2)), itemTokens (serialize (arraySettings dtoa source array space)
            depth) item = itemTokens (selection source (members source (propertyList dtoa array))
              depth) item := by
        intro item hitem
        obtain ⟨p, hp, rfl⟩ := List.mem_map.mp hitem
        rw [itemTokens, itemTokens, ih (hwithin.member hp)]
      have hslots : (slots (arraySettings dtoa source array space) (.object o)
          (some (stringifyArray dtoa array))).reduceOption = _ :=
        slots_object dtoa (h o hwithin)
      rw [serialize_succ rfl, stateTokens, selection, bracketed, bracketed, ← mapM_congr hparts,
        ← hslots]
      rfl
    | array o =>
      have hparts : ∀ item ∈ arrayItems source o,
          itemTokens (serialize (arraySettings dtoa source array space) depth) item =
            itemTokens (selection source (members source (propertyList dtoa array)) depth)
              item := by
        intro item hitem
        rw [itemTokens, itemTokens, ih (hwithin.element hitem)]
      have hslots : (slots (arraySettings dtoa source array space) (.array o) none).reduceOption =
          arrayItems source o := slots_array dtoa o
      rw [serialize_succ rfl, stateTokens, selection, bracketed, bracketed, ← mapM_congr hparts,
        ← hslots]
      rfl
    | _ => rfl

/-! ## What is returned -/

/-- The wrapper has no other property of the array that would be written. -/
def WrapperLacks (source : Source) (keys : List Text) (v : Value) : Prop :=
  ∀ key ∈ keys, key ≠ [] → propertyValue source (.wrapper v) key = none

theorem serializable_array (hwrapper : WrapperLacks source (propertyList dtoa array) v)
    (hitem : propertyValue source (.wrapper v) [] = some item)
    (hempty : LacksEmpty source (propertyList dtoa array) item)
    (htokens : selection source (members source (propertyList dtoa array)) (Json.maxDepth - 1)
      item = some tokens) : Serializable (arraySettings dtoa source array space) v tokens := by
  refine ⟨item, ?_, (serialize_eq dtoa hempty _ .refl).trans htokens⟩
  have hkeys : stateKeys (arraySettings dtoa source array space) (.wrapper v) =
      stringifyArray dtoa array := rfl
  rw [hkeys, slots_keys, stringifyArray_eq, List.filterMap_cons, hitem]
  apply congrArg (List.cons _)
  apply List.filterMap_eq_nil_iff.mpr
  intro key hkey
  obtain ⟨hmem, hne⟩ := List.mem_filter.mp hkey
  rw [hwrapper key hmem (of_decide_eq_true hne)]
  rfl

/-- The keys of the members are keys of the list, each once and in the order of the list. -/
theorem members_keys (source : Source) (dtoa : AsciiDtoa) (array : List Value) (o : ℕ) :
    ((members source (propertyList dtoa array) o).map Prod.fst).Sublist
        (propertyList dtoa array) ∧
      ((members source (propertyList dtoa array) o).map Prod.fst).Nodup := by
  have hsublist : ((members source (propertyList dtoa array) o).map Prod.fst).Sublist
      (propertyList dtoa array) := by
    rw [members, map_fst_filterMap]
    exact List.filter_sublist
  exact ⟨hsublist, (firsts_nodup _).sublist hsublist⟩

theorem selects_members (dtoa : AsciiDtoa) (space : List UInt8)
    (hwrapper : WrapperLacks source (propertyList dtoa array) v)
    (hitem : propertyValue source (.wrapper v) [] = some item)
    (hempty : LacksEmpty source (propertyList dtoa array) item)
    (hdepth : (selection source (members source (propertyList dtoa array)) (Json.maxDepth - 1)
      item).isSome = true) :
    Selects dtoa source array space v item (members source (propertyList dtoa array)) := by
  obtain ⟨tokens, htokens⟩ := Option.isSome_iff_exists.mp hdepth
  have hserializable : Serializable (arraySettings dtoa source array space) v tokens :=
    serializable_array hwrapper hitem hempty htokens
  have happends := hserializable.appends
  exact ⟨tokens, htokens, happends.stringifies dtoa.toDtoa⟩

/-- With an array as the replacer each object of a value is written with its serializable
properties that lookups find and whose keys are in the array, each once and in the order of the
array, and each array with all its elements, if the wrapper lacks the keys of the array and the
other objects lack the empty key. -/
theorem stringify_selects (dtoa : AsciiDtoa) (source : Source) (array : List Value)
    (space : List UInt8) {v item : Value}
    (hwrapper : WrapperLacks source (propertyList dtoa array) v)
    (hitem : propertyValue source (.wrapper v) [] = some item)
    (hempty : LacksEmpty source (propertyList dtoa array) item)
    (hdepth : (selection source (members source (propertyList dtoa array)) (Json.maxDepth - 1)
      item).isSome = true) :
    Selects dtoa source array space v item (members source (propertyList dtoa array)) ∧
      ∀ o, ((members source (propertyList dtoa array) o).map Prod.fst).Sublist
          (propertyList dtoa array) ∧
        ((members source (propertyList dtoa array) o).map Prod.fst).Nodup :=
  ⟨selects_members dtoa space hwrapper hitem hempty hdepth,
    fun o => members_keys source dtoa array o⟩

/-! ## A property of a prototype -/

/-- A source whose object 0 has a prototype with a property. -/
def inheriting (key : Text) : Source where
  elements _ := []
  properties o := if o = 1 then [(key, ⟨.null, true⟩)] else []
  chain o := if o = 0 then [1] else []
  prototype := 2
  toJson _ _ := none

/-- The name of a property. -/
def letterA : Text := asciiText [97]

theorem inheriting_list : propertyList noNumbers [.string letterA] = [letterA] := rfl

theorem inheriting_wrapperLacks :
    WrapperLacks (inheriting letterA) (propertyList noNumbers [.string letterA]) (.object 0) := by
  intro key hkey _
  rw [inheriting_list] at hkey
  obtain rfl := List.mem_singleton.mp hkey
  rfl

theorem inheriting_lacksEmpty :
    LacksEmpty (inheriting letterA) (propertyList noNumbers [.string letterA]) (.object 0) := by
  intro o _
  by_cases h0 : o = 0
  · subst h0
    rfl
  · by_cases h1 : o = 1
    · subst h1
      rfl
    · simp [propertyValue, Source.get, Source.lookup, inheriting, h0, h1, Value.isSkipped]

/-- `JSON.stringify(Object.create({a: null}), ["a"])` is `{"a":null}`. -/
theorem stringify_selects_inheriting :
    Selects noNumbers (inheriting letterA) [.string letterA] [] (.object 0) (.object 0)
        (members (inheriting letterA) (propertyList noNumbers [.string letterA])) ∧
      ∀ o, ((members (inheriting letterA) (propertyList noNumbers [.string letterA]) o).map
          Prod.fst).Sublist (propertyList noNumbers [.string letterA]) ∧
        ((members (inheriting letterA) (propertyList noNumbers [.string letterA]) o).map
          Prod.fst).Nodup :=
  stringify_selects noNumbers (inheriting letterA) [.string letterA] [] inheriting_wrapperLacks
    rfl inheriting_lacksEmpty rfl

theorem Stringifies.unique {dtoa : Dtoa} {result result' : Option (List UInt8)}
    (h : Stringifies settings dtoa v result) (h' : Stringifies settings dtoa v result') :
    result = result' := by
  obtain ⟨n, calls, hn, rfl⟩ := h
  obtain ⟨n', calls', hn', rfl⟩ := h'
  rw [iterate_done_unique hn hn']

/-- The property is no own property of the object, and is written. -/
theorem not_selects_own :
    ¬Selects noNumbers (inheriting letterA) [.string letterA] [] (.object 0) (.object 0)
      (ownMembers (inheriting letterA) (propertyList noNumbers [.string letterA])) := by
  rintro ⟨tokens, htokens, hown⟩
  obtain ⟨tokens', htokens', hall⟩ := selects_members noNumbers [] inheriting_wrapperLacks rfl
    inheriting_lacksEmpty rfl
  obtain rfl := Option.some.inj htokens
  obtain rfl := Option.some.inj htokens'
  exact absurd (hown.unique hall) (by decide)

end Njs.Stringify
