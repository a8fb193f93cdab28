import Njs.Json.Chunks
import Mathlib.Data.List.Basic

/-!
# The iterator of `JSON.stringify()`

`njs_json_stringify_iterator` walks a value with a stack of states, one for each array or object
on the way, and appends to the output as it goes. The functions of the script that it calls, the
getters, `toJSON()` and the replacer, are functions of what they are called with.
-/

namespace Njs.Stringify

open Njs.Utf8 (CodePoint)
open Njs.Json (Call Dtoa)

/-- A string of the script. -/
abbrev Text : Type := List CodePoint

/-- A value. Those that are objects are named by numbers. -/
inductive Value
  | undefined
  | null
  | boolean (b : Bool)
  | number (n : Number)
  | string (s : Text)
  | external
  /-- An element of an array that is not there. -/
  | invalid
  /-- An object, a regular expression, a date or an object of a function of the engine. -/
  | object (o : ℕ)
  | array (o : ℕ)
  | objectBoolean (o : ℕ) (b : Bool)
  | objectNumber (o : ℕ) (n : Number)
  | objectString (o : ℕ) (s : Text)
  | function (o : ℕ)
  deriving DecidableEq

/-- `njs_is_object`. -/
def Value.isObject : Value → Bool
  | object _ | array _ | objectBoolean _ _ | objectNumber _ _ | objectString _ _ | function _ =>
    true
  | _ => false

/-- `njs_json_is_object`. -/
def Value.jsonIsObject : Value → Bool
  | object _ | array _ => true
  | _ => false

/-- The values for which a property is passed over. -/
def Value.isSkipped : Value → Bool
  | undefined | function _ | invalid => true
  | _ => false

/-- A property. The value of an accessor is what its getter returns. -/
structure Property where
  value : Value
  enumerable : Bool

/-- A property key, as the functions of the script get it. -/
inductive Key
  | name (s : Text)
  | index (i : ℕ)

/-- The objects that are there. -/
structure Source where
  elements : ℕ → List Value
  /-- The properties of an object, in the order in which they are enumerated. -/
  properties : ℕ → List (Text × Property)
  /-- The prototypes of an object, the nearest first. -/
  chain : ℕ → List ℕ
  /-- The prototype of a new object. -/
  prototype : ℕ
  /-- What the method `toJSON` of a value returns, if it has one. -/
  toJson : Value → Key → Option Value

/-- What a state is for: the wrapper of a value, an object or an array. -/
inductive Holder
  | wrapper (v : Value)
  | object (o : ℕ)
  | array (o : ℕ)

/-- `njs_value_property` of an object with a chain of prototypes. -/
def Source.lookup (source : Source) (chain : List ℕ) (name : Text) : Value :=
  match chain with
  | [] => .undefined
  | o :: chain =>
    match (source.properties o).find? fun p => p.1 = name with
    | some p => p.2.value
    | none => source.lookup chain name

/-- The value of a property of a holder. -/
def Source.get (source : Source) (holder : Holder) (name : Text) : Value :=
  match holder with
  | .wrapper v => if name = [] then v else source.lookup [source.prototype] name
  | .object o => source.lookup (o :: source.chain o) name
  | .array _ => .undefined

/-- `njs_value_own_enumerate` of a holder. -/
def Source.ownEnumerate (source : Source) : Holder → List Text
  | .wrapper _ => [[]]
  | .object o => ((source.properties o).filter fun p => p.2.enumerable).map Prod.fst
  | .array _ => []

/-- The second argument of `JSON.stringify()`. -/
inductive Replacer
  | none
  /-- The keys that are left of an array. -/
  | keys (properties : List Text)
  | function (apply : Holder → Key → Value → Value)

/-- `njs_json_stringify_t`, without what is in progress. -/
structure Settings where
  source : Source
  replacer : Replacer
  space : List UInt8

/-- `njs_json_state_t`. -/
structure State where
  holder : Holder
  index : ℕ
  /-- The keys of an object, or nothing for an array. -/
  keys : Option (List Text)
  written : Bool

/-- The states, the last one first, and what was appended so far. -/
structure Machine where
  states : List State
  calls : List Call

/-- What an iteration of the loop does. -/
inductive Next
  | running (m : Machine)
  | done (calls : List Call)
  /-- `Nested too deep or a cyclic structure`. -/
  | typeError
  /-- A state that is `NULL` is used. -/
  | fault

variable (settings : Settings)

/-- `njs_json_stringify_to_json`. -/
def stringifyToJson (key : Key) (v : Value) : Value :=
  if v.isObject then (settings.source.toJson v key).getD v else v

/-- `njs_json_stringify_replacer`. -/
def stringifyReplacer (holder : Holder) (key : Key) (v : Value) : Value :=
  match settings.replacer with
  | .function apply => apply holder key v
  | _ => v

/-- `njs_json_append_value`. -/
def appendValue : Value → Call
  | .objectString _ s | .string s => .string Json.quotationMark (.text s)
  | .objectNumber _ n | .number n => .number n
  | .objectBoolean _ b | .boolean b =>
    .append (if b then [116, 114, 117, 101] else [102, 97, 108, 115, 101])
  | _ => .append [110, 117, 108, 108]

/-- `njs_json_stringify_indent`. -/
def stringifyIndent (times : ℕ) : List Call :=
  if settings.space = [] then []
  else .append [10] :: List.replicate (times - 1) (.append settings.space)

/-- The space behind the colon. -/
def stringifySpace : List Call := if settings.space = [] then [] else [.append [32]]

/-- The keys of a new state for an object. -/
def stateKeys (holder : Holder) : List Text :=
  match settings.replacer with
  | .keys properties => properties
  | _ => settings.source.ownEnumerate holder

/-- The state for a value, before its first key or element. -/
def newState : Value → State
  | .array o => ⟨.array o, 0, none, false⟩
  | .object o => ⟨.object o, 0, some (stateKeys settings (.object o)), false⟩
  | v => ⟨.wrapper v, 0, some (stateKeys settings (.wrapper v)), false⟩

/-- `njs_json_push_stringify_state`, after which the loop goes on. -/
def pushStringifyState (m : Machine) (v : Value) : Next :=
  if m.states.length ≥ Json.maxDepth then .typeError
  else .running { m with states := newState settings v :: m.states }

/-- `njs_json_pop_stringify_state`, after which the loop goes on, or is done. -/
def popStringifyState (calls : List Call) : List State → Next
  | [] => .done calls
  | state :: states => .running ⟨{ state with written := true } :: states, calls⟩

/-- The end of an array or object. -/
def closeState (calls : List Call) (below : List State) (bracket : UInt8) : Next :=
  popStringifyState (calls ++ stringifyIndent settings below.length ++ [.append [bracket]]) below

/-- The bracket that is appended before the first key or element. -/
def opening (bracket : UInt8) (index depth : ℕ) : List Call :=
  if index = 0 then .append [bracket] :: stringifyIndent settings depth else []

/-- The comma behind a key or an element. -/
def separator (written : Bool) (depth : ℕ) : List Call :=
  if written then .append [Json.valueSeparator] :: stringifyIndent settings depth else []

/-- An iteration for an object. -/
def stepObject (m : Machine) (state : State) (below : List State) (keys : List Text) : Next :=
  let depth := m.states.length
  let calls := m.calls ++ opening settings Json.beginObject state.index depth
  match keys[state.index]? with
  | none => closeState settings calls below Json.endObject
  | some key =>
    let value := settings.source.get state.holder key
    let state := { state with index := state.index + 1 }
    if value.isSkipped then .running ⟨state :: below, calls⟩
    else
      let value := stringifyToJson settings (.name key) value
      let value := stringifyReplacer settings state.holder (.name key) value
      if value = .undefined then .running ⟨state :: below, calls⟩
      else
        let calls := calls ++ separator settings state.written depth ++
          [.string Json.quotationMark (.text key), .append [Json.nameSeparator]] ++
            stringifySpace settings
        let state := { state with written := true }
        if value.jsonIsObject then pushStringifyState settings ⟨state :: below, calls⟩ value
        else .running ⟨state :: below, calls ++ [appendValue value]⟩

/-- The elements of an array. -/
def Source.elementsOf (source : Source) : Holder → List Value
  | .array o => source.elements o
  | _ => []

/-- An iteration for an array. -/
def stepArray (m : Machine) (state : State) (below : List State) : Next :=
  let depth := m.states.length
  let calls := m.calls ++ opening settings Json.beginArray state.index depth
  match (settings.source.elementsOf state.holder)[state.index]? with
  | none => closeState settings calls below Json.endArray
  | some value =>
    let calls := calls ++ separator settings state.written depth
    let value := stringifyToJson settings (.index state.index) value
    let value := stringifyReplacer settings state.holder (.index state.index) value
    let state := { state with index := state.index + 1 }
    if value.jsonIsObject then pushStringifyState settings ⟨state :: below, calls⟩ value
    else .running ⟨{ state with written := true } :: below, calls ++ [appendValue value]⟩

/-- An iteration of the loop of `njs_json_stringify_iterator`. -/
def step (m : Machine) : Next :=
  match m.states with
  | [] => .fault
  | state :: below =>
    match state.keys with
    | some keys => stepObject settings m state below keys
    | none => stepArray settings m state below

/-- So many iterations. -/
def iterate : ℕ → Machine → Next
  | 0, m => .running m
  | n + 1, m =>
    match step settings m with
    | .running m => iterate n m
    | result => result

/-- `njs_json_stringify_iterator`, before its loop. -/
def start (v : Value) : Machine :=
  ⟨[⟨.wrapper v, 0, some (stateKeys settings (.wrapper v)), false⟩], []⟩

/-- The string without the wrapper, or nothing, which is `undefined`. -/
def strip (str : List UInt8) : Option (List UInt8) :=
  if str.length ≤ 4 then none
  else if settings.space = [] then some ((str.drop 4).take (str.length - 5))
  else some ((str.drop 6).take (str.length - 8))

/-- The bytes that were appended, if there is memory for them. -/
def bytes (dtoa : Dtoa) (calls : List Call) : List UInt8 := calls.flatMap (Call.piece dtoa)

/-- `njs_json_stringify_iterator` returns a string, or `undefined`. -/
def Stringifies (dtoa : Dtoa) (v : Value) (result : Option (List UInt8)) : Prop :=
  ∃ n calls, iterate settings n (start settings v) = .done calls ∧
    strip settings (bytes dtoa calls) = result

end Njs.Stringify

/-!
## The values that `JSON.stringify()` writes

A value is written by a recursion over its elements and properties, in which those that are not
serializable are passed over. What is between them is laid out afterwards.
-/

namespace Njs.Stringify

open Njs.Json (Call Dtoa)

/-- A part of a JSON text. -/
inductive Token
  | opening (bracket : UInt8)
  | closing (bracket : UInt8)
  | comma
  | key (name : Text)
  | value (call : Call)

variable (settings : Settings)

/-- The value of a property behind `toJSON()` and the replacer, if it is serializable. -/
def entry (holder : Holder) (key : Text) : Option (Option Text × Value) :=
  let value := settings.source.get holder key
  if value.isSkipped then none
  else
    let value := stringifyToJson settings (.name key) value
    let value := stringifyReplacer settings holder (.name key) value
    if value = .undefined then none else some (some key, value)

/-- An element behind `toJSON()` and the replacer. -/
def element (holder : Holder) (i : ℕ) (value : Value) : Option Text × Value :=
  (none, stringifyReplacer settings holder (.index i)
    (stringifyToJson settings (.index i) value))

/-- The keys or elements that a state is for, each with what is written for it. -/
def slots (holder : Holder) : Option (List Text) → List (Option (Option Text × Value))
  | some keys => keys.map (entry settings holder)
  | none => (settings.source.elementsOf holder).mapIdx fun i v => some (element settings holder i v)

/-- The tokens of a property or an element. -/
def itemTokens (value : Value → Option (List Token)) (item : Option Text × Value) :
    Option (List Token) :=
  (value item.2).map fun tokens => (item.1.toList.map .key) ++ tokens

/-- The tokens of an array or object whose keys or elements are given. -/
def bracketed (value : Value → Option (List Token)) (first last : UInt8)
    (items : List (Option Text × Value)) : Option (List Token) :=
  (items.mapM (itemTokens value)).map fun parts =>
    .opening first :: [.comma].intercalate parts ++ [.closing last]

/-- The brackets of a state. -/
def brackets : Option (List Text) → UInt8 × UInt8
  | some _ => (Json.beginObject, Json.endObject)
  | none => (Json.beginArray, Json.endArray)

/-- The tokens of the value of a state. -/
def stateTokens (value : Value → Option (List Token)) (state : State) : Option (List Token) :=
  bracketed value (brackets state.keys).1 (brackets state.keys).2
    (slots settings state.holder state.keys).reduceOption

/-- The tokens of a value that is nested at most so deep. -/
def serialize : ℕ → Value → Option (List Token)
  | depth, v =>
    if v.jsonIsObject then
      match depth with
      | 0 => none
      | depth + 1 => stateTokens settings (serialize depth) (newState settings v)
    else some [.value (appendValue v)]

/-- What is appended for some tokens between so many brackets. -/
def layout : ℕ → List Token → List Call
  | _, [] => []
  | level, .opening bracket :: tokens =>
    .append [bracket] :: stringifyIndent settings (level + 1) ++ layout (level + 1) tokens
  | level, .closing bracket :: tokens =>
    stringifyIndent settings (level - 1) ++ [.append [bracket]] ++ layout (level - 1) tokens
  | level, .comma :: tokens =>
    .append [Json.valueSeparator] :: stringifyIndent settings level ++ layout level tokens
  | level, .key name :: tokens =>
    [.string Json.quotationMark (.text name), .append [Json.nameSeparator]] ++
      stringifySpace settings ++ layout level tokens
  | level, .value call :: tokens => call :: layout level tokens

/-- The brackets that are open behind some tokens, if no more are closed than are open. -/
def levelAfter : ℕ → List Token → Option ℕ
  | level, [] => some level
  | level, .opening _ :: tokens => levelAfter (level + 1) tokens
  | 0, .closing _ :: _ => none
  | level + 1, .closing _ :: tokens => levelAfter level tokens
  | level, .comma :: tokens => levelAfter level tokens
  | level, .key _ :: tokens => levelAfter level tokens
  | level, .value _ :: tokens => levelAfter level tokens

/-- Each bracket that is opened is closed again. -/
def Balanced (tokens : List Token) : Prop := ∀ level, levelAfter level tokens = some level

variable {settings} {level : ℕ} {tokens tokens' : List Token} {depth : ℕ} {v : Value}

theorem levelAfter_append (level : ℕ) (tokens tokens' : List Token) :
    levelAfter level (tokens ++ tokens') =
      (levelAfter level tokens).bind fun level => levelAfter level tokens' := by
  induction tokens generalizing level with
  | nil => rfl
  | cons token tokens ih =>
    cases token with
    | closing bracket =>
      cases level with
      | zero => rfl
      | succ level => exact ih level
    | _ => exact ih _

theorem layout_append {level' : ℕ} (h : levelAfter level tokens = some level')
    (tokens' : List Token) : layout settings level (tokens ++ tokens') =
      layout settings level tokens ++ layout settings level' tokens' := by
  induction tokens generalizing level with
  | nil =>
    obtain rfl := Option.some.inj h
    rfl
  | cons token tokens ih =>
    cases token with
    | closing bracket =>
      cases level with
      | zero => cases h
      | succ level => simp only [List.cons_append, layout, ih h, List.append_assoc,
          Nat.add_sub_cancel]
    | _ => simp only [List.cons_append, layout, ih h, List.append_assoc]

theorem Balanced.append (h : Balanced tokens) (h' : Balanced tokens') :
    Balanced (tokens ++ tokens') := by
  intro level
  rw [levelAfter_append, h, Option.bind_some, h']

theorem Balanced.layout_append (h : Balanced tokens) (level : ℕ) (tokens' : List Token) :
    layout settings level (tokens ++ tokens') =
      layout settings level tokens ++ layout settings level tokens' :=
  Stringify.layout_append (h level) tokens'

/-- The parts of an array or object, behind one or none. -/
def restTokens (written : Bool) (parts : List (List Token)) : List Token :=
  if written then parts.flatMap (Token.comma :: ·) else [Token.comma].intercalate parts

theorem restTokens_cons (written : Bool) (part : List Token) (parts : List (List Token)) :
    restTokens written (part :: parts) =
      (if written then [.comma] else []) ++ part ++ restTokens true parts := by
  have hintercalate : ∀ part, [Token.comma].intercalate (part :: parts) =
      part ++ parts.flatMap (Token.comma :: ·) := by
    induction parts with
    | nil => simp
    | cons part' parts ih =>
      intro part
      rw [List.intercalate_cons_cons, ih, List.flatMap_cons]
      simp
  cases written with
  | true => rfl
  | false => exact hintercalate part

theorem mem_restTokens {parts : List (List Token)} {written : Bool} {token : Token}
    (h : token ∈ restTokens written parts) : token = .comma ∨ ∃ part ∈ parts, token ∈ part := by
  induction parts generalizing written with
  | nil => cases written <;> cases h
  | cons part parts ih =>
    rw [restTokens_cons, List.mem_append, List.mem_append] at h
    rcases h with (h | h) | h
    · cases written with
      | true => exact Or.inl (List.mem_singleton.mp h)
      | false => cases h
    · exact Or.inr ⟨part, List.mem_cons_self, h⟩
    · rcases ih h with h | ⟨part', hpart', h⟩
      · exact Or.inl h
      · exact Or.inr ⟨part', List.mem_cons_of_mem part hpart', h⟩

theorem restTokens_balanced {parts : List (List Token)} (h : ∀ part ∈ parts, Balanced part)
    (written : Bool) : Balanced (restTokens written parts) := by
  induction parts generalizing written with
  | nil => cases written <;> exact fun _ => rfl
  | cons part parts ih =>
    rw [restTokens_cons]
    have hrest := ih (fun p hp => h p (List.mem_cons_of_mem part hp)) true
    refine Balanced.append (Balanced.append ?_ (h part List.mem_cons_self)) hrest
    cases written <;> exact fun _ => rfl

theorem itemTokens_some {value : Value → Option (List Token)} {item : Option Text × Value}
    (h : itemTokens value item = some tokens) :
    ∃ rest, value item.2 = some rest ∧ tokens = item.1.toList.map .key ++ rest := by
  obtain ⟨rest, hrest, rfl⟩ := Option.map_eq_some_iff.mp h
  exact ⟨rest, hrest, rfl⟩

theorem mapM_cons_some {α β : Type} {f : α → Option β} {a : α} {as : List α} {bs : List β}
    (h : (a :: as).mapM f = some bs) :
    ∃ b rest, f a = some b ∧ as.mapM f = some rest ∧ bs = b :: rest := by
  rw [List.mapM_cons] at h
  obtain ⟨b, hb, h⟩ := Option.bind_eq_some_iff.mp h
  obtain ⟨rest, hrest, h⟩ := Option.bind_eq_some_iff.mp h
  exact ⟨b, rest, hb, hrest, (Option.some.inj h).symm⟩

theorem mapM_mem {α β : Type} {f : α → Option β} {as : List α} {bs : List β} {b : β}
    (h : as.mapM f = some bs) (hb : b ∈ bs) : ∃ a ∈ as, f a = some b := by
  induction as generalizing bs with
  | nil =>
    obtain rfl := Option.some.inj h
    cases hb
  | cons a as ih =>
    obtain ⟨b', rest, ha, hrest, rfl⟩ := mapM_cons_some h
    rcases List.mem_cons.mp hb with rfl | hb
    · exact ⟨a, List.mem_cons_self, ha⟩
    · obtain ⟨a', ha', hfa⟩ := ih hrest hb
      exact ⟨a', List.mem_cons_of_mem a ha', hfa⟩

/-- The parts of an array or object have brackets of their own. -/
theorem parts_balanced {value : Value → Option (List Token)} {items : List (Option Text × Value)}
    {parts : List (List Token)} (hvalue : ∀ v tokens, value v = some tokens → Balanced tokens)
    (h : items.mapM (itemTokens value) = some parts) : ∀ part ∈ parts, Balanced part := by
  intro part hpart
  obtain ⟨item, -, hitem⟩ := mapM_mem h hpart
  obtain ⟨rest, hrest, rfl⟩ := itemTokens_some hitem
  refine Balanced.append ?_ (hvalue _ _ hrest)
  cases item.1 <;> exact fun _ => rfl

theorem bracketed_balanced {value : Value → Option (List Token)} {first last : UInt8}
    {items : List (Option Text × Value)}
    (hvalue : ∀ v tokens, value v = some tokens → Balanced tokens)
    (h : bracketed value first last items = some tokens) : Balanced tokens := by
  obtain ⟨parts, hparts, rfl⟩ := Option.map_eq_some_iff.mp h
  intro level
  have hrest := restTokens_balanced (parts_balanced hvalue hparts) false (level + 1)
  simp only [restTokens, Bool.false_eq_true, if_false] at hrest
  simp only [List.cons_append, levelAfter, levelAfter_append, hrest, Option.bind_some]

theorem serialize_leaf (h : v.jsonIsObject = false) (depth : ℕ) :
    serialize settings depth v = some [.value (appendValue v)] := by
  cases depth <;> simp only [serialize, h, Bool.false_eq_true, if_false]

theorem serialize_zero (h : v.jsonIsObject = true) : serialize settings 0 v = none := by
  simp only [serialize, h, if_true]

theorem serialize_succ (h : v.jsonIsObject = true) (depth : ℕ) :
    serialize settings (depth + 1) v =
      stateTokens settings (serialize settings depth) (newState settings v) := by
  simp only [serialize, h, if_true]

theorem serialize_balanced (h : serialize settings depth v = some tokens) : Balanced tokens := by
  induction depth generalizing v tokens with
  | zero =>
    cases hobject : v.jsonIsObject with
    | true =>
      rw [serialize_zero hobject] at h
      cases h
    | false =>
      rw [serialize_leaf hobject] at h
      obtain rfl := Option.some.inj h
      exact fun _ => rfl
  | succ depth ih =>
    cases hobject : v.jsonIsObject with
    | true =>
      rw [serialize_succ hobject] at h
      exact bracketed_balanced (fun _ _ => ih) h
    | false =>
      rw [serialize_leaf hobject] at h
      obtain rfl := Option.some.inj h
      exact fun _ => rfl

end Njs.Stringify
