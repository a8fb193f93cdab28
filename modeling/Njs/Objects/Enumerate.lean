import Njs.Json.Chunks
import Njs.Objects.Property
import Njs.Str.Subject
import Njs.Strtod

/-!
# Enumerating properties

`njs_object_enumerate` counts the properties of an object and of its prototypes, allocates an
array for so many, and goes through the objects once more to write them. An element and a
character are never looked for in the objects before their own; a property in a hash is looked
for in the hashes of these.
-/

namespace Njs.Objects.Enumeration

open Njs.Utf8 (code CodePoint)

/-- `njs_object_enum_t`. -/
inductive EnumKind
  | keys
  | values
  | both
  deriving DecidableEq

/-- An object. The value of a string object is a well-formed string. -/
structure Link extends Object where
  characters : ∀ value, type = .string value → ∃ s : Str.Subject, s.chars = value

/-- An item of the array that is returned. -/
inductive Item
  | key (name : Name)
  | value (v : Option Value)
  | entry (name : Name) (v : Option Value)
  deriving DecidableEq

/-- What is written for a property. -/
def EnumKind.item (kind : EnumKind) (p : Name × Option Value) : Item :=
  match kind with
  | keys => .key p.1
  | values => .value p.2
  | both => .entry p.1 p.2

/-- `NJS_ARRAY_SPARE`. -/
def arraySpare : ℕ := 8

/-- `NJS_ARRAY_MAX_LENGTH`. -/
def arrayMaxLength : ℕ := (2 ^ 32 - 1) / 16

/-- `NJS_STRING_SHORT`. -/
def stringShort : ℕ := 14

/-- The memory that there is for the array and for the entries that are put into it. -/
structure EnumMemory where
  array : Bool
  /-- Whether there is memory for an entry when so many items are written. -/
  entry : ℕ → Bool

/-- `njs_object_exist_in_proto`, with the objects that are nearer in the chain. -/
def existInProto (name : Name) : List Link → Option Property
  | [] => none
  | o :: nearer =>
    match o.hash.lookup name with
    | some prop => if prop.type = .whiteout then existInProto name nearer else some prop
    | none =>
      match o.sharedHash.lookup name with
      | some prop => some prop
      | none => existInProto name nearer

/-- A property in the hash is enumerated. -/
def ownEnumerated (nearer : List Link) (all : Bool) (entry : Sigma fun _ : Name => Property) :
    Bool :=
  (existInProto entry.1 nearer).isNone && entry.2.type ≠ .whiteout &&
    (entry.2.enumerable.holds || all)

/-- A property in the shared hash is enumerated. -/
def sharedEnumerated (nearer : List Link) (o : Link) (all : Bool)
    (entry : Sigma fun _ : Name => Property) : Bool :=
  (o.hash.lookup entry.1).isNone && (existInProto entry.1 nearer).isNone &&
    (entry.2.enumerable.holds || all)

/-! ## Counting -/

/-- A loop that counts. -/
def lengthLoop {α : Type} (counted : α → Bool) : List α → UInt32 → UInt32
  | [], length => length
  | a :: l, length => lengthLoop counted l (if counted a then length + 1 else length)

/-- `njs_object_own_enumerate_object_length`. -/
def ownEnumerateObjectLength (nearer : List Link) (all : Bool) (o : Link) : UInt32 :=
  lengthLoop (sharedEnumerated nearer o all) o.sharedHash.entries
    (lengthLoop (ownEnumerated nearer all) o.hash.entries 0)

/-- The items that are written, and how many more there is room for. -/
structure Items where
  room : ℕ
  written : List Item

/-- `*item++ = x`. -/
def Items.put (items : Items) (x : Item) : Result Items :=
  if items.room = 0 then .error .fault else .ok ⟨items.room - 1, items.written ++ [x]⟩

variable (memory : EnumMemory) (kind : EnumKind)

/-- A property is written. -/
def putItem (items : Items) (p : Name × Option Value) : Result Items :=
  match kind with
  | .both =>
    if memory.entry items.written.length then items.put (kind.item p)
    else .error (.throw .memoryError)
  | _ => items.put (kind.item p)

/-- The loop of `njs_object_enumerate_array`. -/
def enumerateArrayLoop : ℕ → List (Option Value) → Items → Result Items
  | _, [], items => .ok items
  | i, none :: start, items => enumerateArrayLoop (i + 1) start items
  | i, some v :: start, items => do
    let items ← putItem memory kind items (decimal i, some v)
    enumerateArrayLoop (i + 1) start items

/-- The loop of `njs_object_enumerate_string` for keys. -/
def enumerateKeysLoop : ℕ → ℕ → Items → Result Items
  | _, 0, items => .ok items
  | i, len + 1, items => do
    let items ← putItem memory kind items (decimal i, none)
    enumerateKeysLoop (i + 1) len items

/-- The loop of `njs_object_enumerate_string` over a byte or ASCII string. -/
def enumerateBytesLoop : ℕ → List UInt8 → Items → Result Items
  | _, [], items => .ok items
  | i, c :: start, items => do
    let items ← putItem memory kind items (decimal i, some (.string [c]))
    enumerateBytesLoop (i + 1) start items

/-- The loop of `njs_object_enumerate_string` over a UTF-8 string, with fuel for its
iterations. -/
def enumerateCharsLoop : ℕ → ℕ → List UInt8 → Items → Result Items
  | 0, _, _, _ => .error .fault
  | fuel + 1, i, src, items => do
    let (c, src) ← Json.utf8Copy ⟨[], stringShort⟩ src
    let items ← putItem memory kind items (decimal i, some (.string c.bytes))
    if src = [] then return items else enumerateCharsLoop fuel (i + 1) src items

/-- `njs_object_enumerate_string`. -/
def enumerateString (value : List Name) (items : Items) : Result Items :=
  match kind with
  | .keys => enumerateKeysLoop memory kind 0 value.length items
  | _ =>
    let start := value.flatten
    if start.length = value.length then enumerateBytesLoop memory kind 0 start items
    else enumerateCharsLoop memory kind start.length 0 start items

/-- The elements or characters of an object. -/
def enumerateElements (type : ObjectType) (items : Items) : Result Items :=
  match type with
  | .object => .ok items
  | .array start => enumerateArrayLoop memory kind 0 start items
  | .string value => enumerateString memory kind value items

/-- A loop over a hash. -/
def enumerateHashLoop (enumerated : (Sigma fun _ : Name => Property) → Bool) :
    List (Sigma fun _ : Name => Property) → Items → Result Items
  | [], items => .ok items
  | entry :: hash, items =>
    if enumerated entry then do
      let items ← putItem memory kind items (entry.1, entry.2.value)
      enumerateHashLoop enumerated hash items
    else enumerateHashLoop enumerated hash items

variable (all : Bool)

/-- `njs_object_own_enumerate_object`. -/
def ownEnumerateObject (nearer : List Link) (o : Link) (items : Items) : Result Items := do
  let items ← enumerateHashLoop memory kind (ownEnumerated nearer all) o.hash.entries items
  enumerateHashLoop memory kind (sharedEnumerated nearer o all) o.sharedHash.entries items

/-- The array that is filled, with its length and the items that were written. -/
def enumerated (length : UInt32) (fill : Items → Result Items) : Result (ℕ × List Item) :=
  if length.toNat + arraySpare ≤ arrayMaxLength ∧ memory.array then do
    let items ← fill ⟨length.toNat + arraySpare, []⟩
    return (length.toNat, items.written)
  else .error (.throw .memoryError)

end Njs.Objects.Enumeration
