import Njs.Lib.Watching
import Mathlib.Data.BitVec

/-!
# Values of the interpreter

A value has a type and a payload. Doubles, strings and the pointers to everything else are
types of their own here; what the instructions do with them is a structure of functions.
-/

namespace Njs.Vmcode

open Njs.Lib

/-- The types from `NJS_OBJECT` to `NJS_OBJECT_VALUE`, in their order. -/
inductive ObjectType
  | object | array | objectBoolean | objectNumber | objectString | function | regexp | date
  | objectValue
  deriving DecidableEq

def ObjectType.index : ObjectType → ℕ
  | .object => 0 | .array => 1 | .objectBoolean => 2 | .objectNumber => 3 | .objectString => 4
  | .function => 5 | .regexp => 6 | .date => 7 | .objectValue => 8

/-- `njs_value_t` over doubles `D`, strings `S` and pointers `O`. -/
inductive Value (D S O : Type)
  | null
  | undefined
  | boolean (b : Bool)
  | number (n : D)
  | string (s : S)
  | data (o : O)
  | external (o : O)
  | invalid (o : O)
  | object (type : ObjectType) (o : O)
  deriving DecidableEq

namespace Value

variable {D S O : Type}

/-- `njs_value_type_t`. -/
def type : Value D S O → ℕ
  | null => 0x00
  | undefined => 0x01
  | boolean _ => 0x02
  | number _ => 0x03
  | string _ => 0x04
  | data _ => 0x05
  | external _ => 0x06
  | invalid _ => 0x07
  | object type _ => 0x10 + type.index

/-- `njs_is_null_or_undefined`. -/
def isNullOrUndefined (v : Value D S O) : Bool := v.type ≤ 0x01

/-- `njs_is_numeric`. -/
def isNumeric (v : Value D S O) : Bool := v.type ≤ 0x03

/-- `njs_is_string`. -/
def isString (v : Value D S O) : Bool := v.type = 0x04

/-- `njs_is_primitive`. -/
def isPrimitive (v : Value D S O) : Bool := v.type ≤ 0x04

/-- `njs_is_object`. -/
def isObject (v : Value D S O) : Bool := 0x10 ≤ v.type

/-- `njs_is_function`. -/
def isFunction (v : Value D S O) : Bool := v.type = 0x15

/-- `njs_is_date`. -/
def isDate (v : Value D S O) : Bool := v.type = 0x17

variable (object_type : ObjectType) (o : O)

@[simp] theorem isNumeric_object : (object object_type o : Value D S O).isNumeric = false :=
  decide_eq_false (by simp only [type]; omega)

@[simp] theorem isPrimitive_object : (object object_type o : Value D S O).isPrimitive = false :=
  decide_eq_false (by simp only [type]; omega)

/-- The payload of a value that is neither numeric nor a string. -/
def pointer : Value D S O → Option O
  | data o => some o
  | external o => some o
  | invalid o => some o
  | object _ o => some o
  | _ => none

end Value

/-- What C does with doubles, and the conversions to integers of `njs_number.h`. -/
structure Doubles (D : Type) where
  nan : D
  zero : D
  one : D
  add : D → D → D
  sub : D → D → D
  mul : D → D → D
  div : D → D → D
  fmod : D → D → D
  pow : D → D → D
  fabs : D → D
  equal : D → D → Bool
  less : D → D → Bool
  isnan : D → Bool
  isinf : D → Bool
  ofInt : ℤ → D
  /-- `njs_number_to_int64`. -/
  toInt64 : D → BitVec 64

namespace Doubles

variable {D : Type} (doubles : Doubles D)

/-- `njs_number_to_int32` and `njs_number_to_uint32`. -/
def toInt32 (num : D) : BitVec 32 := (doubles.toInt64 num).setWidth 32

end Doubles

/-- The two methods that `njs_value_to_primitive` tries. -/
inductive Method
  | valueOf
  | toString
  deriving DecidableEq

/-- What the instructions use of the engine. The state `W` has the variables, the objects and
everything that the script can change; an exception is in `vm->retval`, and so in `W`. -/
structure Vm (D S O W I : Type) where
  doubles : Doubles D
  /-- `njs_vmcode_operand`. -/
  operand : W → I → Value D S O
  setOperand : W → I → Value D S O → W
  /-- `njs_object_property` of an object: it may run a getter. -/
  objectProperty : Value D S O → Method → Effect Unit W (Value D S O)
  /-- `njs_function_apply` of a function to `this`. -/
  functionApply : Value D S O → Value D S O → Effect Unit W (Value D S O)
  /-- `njs_type_error`. -/
  typeError : String → W → W
  /-- `njs_string_to_number`. -/
  stringToNumber : S → D
  /-- `njs_number_to_string`. -/
  numberToString : D → Effect Unit W S
  /-- `njs_string_null` and its siblings. -/
  stringNull : S
  stringUndefined : S
  stringBoolean : Bool → S
  /-- The concatenation in `njs_string_concat`. -/
  concat : S → S → Effect Unit W S
  /-- `njs_string_eq`. -/
  stringEq : S → S → Bool
  /-- `njs_string_cmp`. -/
  stringCmp : S → S → ℤ

/-- The instructions of a relation, without equality. -/
inductive Relation
  | less | greater | lessOrEqual | greaterOrEqual
  deriving DecidableEq

/-- The arithmetic instructions of two operands, without `NJS_VMCODE_ADDITION`. -/
inductive Arithmetic
  | substraction | multiplication | exponentiation | division | remainder
  | bitwiseAnd | bitwiseOr | bitwiseXor
  | leftShift | rightShift | unsignedRightShift
  deriving DecidableEq

/-- The instructions that convert two operands, by the case of the interpreter they are in. -/
inductive Operation
  | relation (op : Relation)
  | addition
  | equal
  | notEqual
  | arithmetic (op : Arithmetic)
  deriving DecidableEq

end Njs.Vmcode

/-!
## The instructions with two operands

The cases of `njs_vmcode_interpreter` for relations, addition, equality and arithmetic. The
operands are pointers to variables: whatever is read through them after a method of the script
has run is what the variables have then.
-/

namespace Njs.Vmcode

open Njs.Lib

variable {D S O W I : Type}

/-- A pointer to a variable of the script, or to a local variable of the interpreter. -/
inductive Pointer (D S O I : Type)
  | operand (i : I)
  | temporary (v : Value D S O)

/-- Code of the interpreter. It looks at variables of the script, and it stops with a fault where
a payload is read as that of a type that the value is not of. -/
abbrev Code (D S O W I β : Type) : Type := Watching Unit W I (Value D S O) β

variable (vm : Vm D S O W I)

def deref : Pointer D S O I → Code D S O W I (Value D S O)
  | .operand i => Watching.look vm.operand i
  | .temporary v => pure v

/-- The number in the payload of a numeric value. -/
def Value.num (v : Value D S O) : Option D :=
  match v with
  | .null => some vm.doubles.zero
  | .undefined => some vm.doubles.nan
  | .boolean b => some (if b then vm.doubles.one else vm.doubles.zero)
  | .number n => some n
  | _ => none

/-- The string in the payload. -/
def Value.str : Value D S O → Option S
  | .string s => some s
  | _ => none

/-- `njs_number`. -/
def number (v : Value D S O) : Code D S O W I D :=
  match v.num vm with
  | some n => pure n
  | none => Watching.fault

/-- A payload that is read as a string. -/
def payloadString (v : Value D S O) : Code D S O W I S :=
  match v.str with
  | some s => pure s
  | none => Watching.fault

/-! ## Conversions -/

/-- The methods in the order of the hint, which is set for a string. -/
def methods (hint : Bool) : List Method :=
  if hint then [.toString, .valueOf] else [.valueOf, .toString]

/-- `njs_type_error` and the return after it. -/
def typeError {β : Type} (message : String) : Effect Unit W β := fun w =>
  (.error (), vm.typeError message w)

def cannotConvert : String := "Cannot convert object to primitive value"

/-- The loop of `njs_value_to_primitive` over the methods that are left. -/
def primitiveTries (value : Pointer D S O I) : List Method → Code D S O W I (Value D S O)
  | [] => Watching.lift (typeError vm cannotConvert)
  | name :: names => do
    let v ← deref vm value
    if v.isObject then
      let method ← Watching.lift (vm.objectProperty v name)
      if method.isFunction then
        let this ← deref vm value
        let retval ← Watching.lift (vm.functionApply method this)
        if retval.isPrimitive then
          return retval
        else
          primitiveTries value names
      else
        primitiveTries value names
    else
      Watching.lift (typeError vm cannotConvert)

/-- `njs_value_to_primitive`. -/
def valueToPrimitive (value : Pointer D S O I) (hint : Bool) : Code D S O W I (Value D S O) := do
  let v ← deref vm value
  if v.isPrimitive then
    return v
  else
    primitiveTries vm value (methods hint)

/-- The end of `njs_value_to_number`, for a primitive value. -/
def primitiveToNumber (v : Value D S O) : D :=
  match v.num vm with
  | some n => n
  | none =>
    match v.str with
    | some s => vm.stringToNumber s
    | none => vm.doubles.nan

/-- `njs_value_to_number`. -/
def valueToNumber (value : Pointer D S O I) : Code D S O W I D := do
  let v ← deref vm value
  if v.isPrimitive then
    return primitiveToNumber vm v
  else
    let primitive ← valueToPrimitive vm value false
    return primitiveToNumber vm primitive

/-- `njs_value_to_numeric`. -/
def valueToNumeric (value : Pointer D S O I) : Code D S O W I (Value D S O) := do
  let num ← valueToNumber vm value
  return .number num

/-- `njs_primitive_value_to_string`. -/
def primitiveValueToString : Value D S O → Effect Unit W (Value D S O)
  | .null => pure (.string vm.stringNull)
  | .undefined => pure (.string vm.stringUndefined)
  | .boolean b => pure (.string (vm.stringBoolean b))
  | .number n => do
    let s ← vm.numberToString n
    return .string s
  | .string s => pure (.string s)
  | _ => Effect.throw ()

/-- `njs_string_concat`. -/
def stringConcat (val1 val2 : Value D S O) : Code D S O W I (Value D S O) := do
  let s1 ← payloadString val1
  let s2 ← payloadString val2
  let s ← Watching.lift (vm.concat s1 s2)
  return .string s

/-- `njs_primitive_values_compare`: 1 for less, 0 for not less and -1 for not comparable. -/
def primitiveValuesCompare (val1 val2 : Value D S O) : Code D S O W I ℤ := do
  if val1.isNumeric || val2.isNumeric then
    let num1 ← if val1.isNumeric then number vm val1 else vm.stringToNumber <$> payloadString val1
    let num2 ← if val2.isNumeric then number vm val2 else vm.stringToNumber <$> payloadString val2
    if vm.doubles.isnan num1 || vm.doubles.isnan num2 then
      return -1
    else
      return if vm.doubles.less num1 num2 then 1 else 0
  else
    let s1 ← payloadString val1
    let s2 ← payloadString val2
    return if vm.stringCmp s1 s2 < 0 then 1 else 0

/-! ## Operands -/

/-- An operand that is of the types that an instruction takes as they are stays where it is, and
another one is converted to a local variable. -/
def fetch (direct : Value D S O → Bool)
    (convert : Pointer D S O I → Value D S O → Code D S O W I (Value D S O))
    (value : Pointer D S O I) : Code D S O W I (Pointer D S O I) := do
  let v ← deref vm value
  if direct v then
    return value
  else
    let converted ← convert value v
    return .temporary converted

/-- The values of two operands after both were converted. -/
def fetchTwo (direct : Value D S O → Bool)
    (convert : Pointer D S O I → Value D S O → Code D S O W I (Value D S O)) (src1 src2 : I) :
    Code D S O W I (Value D S O × Value D S O) := do
  let value1 ← fetch vm direct convert (.operand src1)
  let value2 ← fetch vm direct convert (.operand src2)
  let v1 ← deref vm value1
  let v2 ← deref vm value2
  return (v1, v2)

/-! ## Relations and addition -/

/-- The relations that exchange their operands. -/
def Relation.exchanges : Relation → Bool
  | .less => false
  | .greater => true
  | .lessOrEqual => true
  | .greaterOrEqual => false

/-- The result of a relation from that of the comparison. -/
def Relation.result (op : Relation) (ret : ℤ) : Bool :=
  match op with
  | .less | .greater => ret > 0
  | .lessOrEqual | .greaterOrEqual => ret = 0

/-- The end of the relations. -/
def relateValues (op : Relation) (v1 v2 : Value D S O) : Code D S O W I (Value D S O) := do
  let ret ← if op.exchanges then primitiveValuesCompare vm v2 v1
    else primitiveValuesCompare vm v1 v2
  return .boolean (op.result ret)

def relation (op : Relation) (src1 src2 : I) : Code D S O W I (Value D S O) := do
  let (v1, v2) ← fetchTwo vm Value.isPrimitive (fun value _ => valueToPrimitive vm value false)
    src1 src2
  relateValues vm op v1 v2

/-- The end of `NJS_VMCODE_ADDITION`. -/
def addValues (v1 v2 : Value D S O) : Code D S O W I (Value D S O) := do
  if v1.isNumeric && v2.isNumeric then
    let num1 ← number vm v1
    let num2 ← number vm v2
    return .number (vm.doubles.add num1 num2)
  else if v1.isString then
    let dst ← Watching.lift (primitiveValueToString vm v2)
    stringConcat vm v1 dst
  else
    let dst ← Watching.lift (primitiveValueToString vm v1)
    stringConcat vm dst v2

def addition (src1 src2 : I) : Code D S O W I (Value D S O) := do
  let (v1, v2) ← fetchTwo vm Value.isPrimitive
    (fun value v => valueToPrimitive vm value v.isDate) src1 src2
  addValues vm v1 v2

/-! ## Equality -/

/-- The pointer `lv` after `primitive` was assigned: it may be a pointer to that. -/
def Pointer.assigned (lv : Pointer D S O I) (primitive : Value D S O) : Pointer D S O I :=
  match lv with
  | .operand i => .operand i
  | .temporary _ => .temporary primitive

variable [DecidableEq O]

/-- The end of `njs_values_equal`, where the types differ and that of `hv` is the higher one. -/
def equalSorted (again : Pointer D S O I → Pointer D S O I → Code D S O W I Bool)
    (hv lv : Pointer D S O I) (high low : Value D S O) : Code D S O W I Bool := do
  if low.isObject then
    return false
  else if high.isString then
    let num ← number vm low
    let s ← payloadString high
    return vm.doubles.equal num (vm.stringToNumber s)
  else
    let primitive ← valueToPrimitive vm hv false
    again (.temporary primitive) (lv.assigned primitive)

/-- A pass of `njs_values_equal` after `val1` and `val2` were read. -/
def equalPass (again : Pointer D S O I → Pointer D S O I → Code D S O W I Bool)
    (val1 val2 : Pointer D S O I) (v1 v2 : Value D S O) : Code D S O W I Bool := do
  if v1.isNullOrUndefined || v2.isNullOrUndefined then
    return v1.isNullOrUndefined && v2.isNullOrUndefined
  else if v1.isNumeric && v2.isNumeric then
    let num1 ← number vm v1
    let num2 ← number vm v2
    return vm.doubles.equal num1 num2
  else if v1.type = v2.type then
    if v1.isString then
      let s1 ← payloadString v1
      let s2 ← payloadString v2
      return vm.stringEq s1 s2
    else
      return v1.pointer = v2.pointer
  else if v1.type > v2.type then
    equalSorted vm again val1 val2 v1 v2
  else
    equalSorted vm again val2 val1 v2 v1

/-- `njs_values_equal` with a bound for the passes. -/
def valuesEqual : ℕ → Pointer D S O I → Pointer D S O I → Code D S O W I Bool
  | 0, _, _ => Watching.fault
  | passes + 1, val1, val2 => do
    let v1 ← deref vm val1
    let v2 ← deref vm val2
    equalPass vm (valuesEqual passes) val1 val2 v1 v2

/-- Two operands are compared in three passes at most: each converts one of them. -/
def equality (negated : Bool) (src1 src2 : I) : Code D S O W I (Value D S O) := do
  let ret ← valuesEqual vm 3 (.operand src1) (.operand src2)
  return .boolean (ret ^^ negated)

/-! ## Arithmetic -/

/-- The result of an arithmetic instruction from two numbers. -/
def Arithmetic.result (op : Arithmetic) (num1 num2 : D) : D :=
  let doubles := vm.doubles
  let shift := (doubles.toInt32 num2).toNat &&& 0x1f
  match op with
  | .substraction => doubles.sub num1 num2
  | .multiplication => doubles.mul num1 num2
  | .exponentiation =>
    if !doubles.equal (doubles.fabs num1) doubles.one
      || (!doubles.isnan num2 && !doubles.isinf num2) then doubles.pow num1 num2
    else doubles.nan
  | .division => doubles.div num1 num2
  | .remainder => doubles.fmod num1 num2
  | .bitwiseAnd => doubles.ofInt (doubles.toInt32 num2 &&& doubles.toInt32 num1).toInt
  | .bitwiseOr => doubles.ofInt (doubles.toInt32 num2 ||| doubles.toInt32 num1).toInt
  | .bitwiseXor => doubles.ofInt (doubles.toInt32 num2 ^^^ doubles.toInt32 num1).toInt
  | .leftShift => doubles.ofInt (doubles.toInt32 num1 <<< shift).toInt
  | .rightShift => doubles.ofInt ((doubles.toInt32 num1).sshiftRight shift).toInt
  | .unsignedRightShift => doubles.ofInt (doubles.toInt32 num1 >>> shift).toNat

/-- The end of the arithmetic instructions. -/
def combineValues (op : Arithmetic) (v1 v2 : Value D S O) : Code D S O W I (Value D S O) := do
  let num1 ← number vm v1
  let num2 ← number vm v2
  return .number (op.result vm num1 num2)

def arithmetic (op : Arithmetic) (src1 src2 : I) : Code D S O W I (Value D S O) := do
  let (v1, v2) ← fetchTwo vm Value.isNumeric (fun value _ => valueToNumeric vm value) src1 src2
  combineValues vm op v1 v2

end Njs.Vmcode
