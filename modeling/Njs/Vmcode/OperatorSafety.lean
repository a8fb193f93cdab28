import Njs.Vmcode.Operators

/-!
# Instructions and the methods of their operands

The script can assign to the variables of the operands in the methods that convert them. The
instruction uses the values that it started with if and only if the variables still have them
whenever it comes back to them.
-/

namespace Njs.Vmcode

open Njs.Lib

variable {D S O W I : Type} (vm : Vm D S O W I)

/-! ## The meaning of the operators -/

/-- The result of the first method that returns a primitive value. -/
def firstPrimitive (v : Value D S O) : List Method → Effect Unit W (Value D S O)
  | [] => typeError vm cannotConvert
  | name :: names =>
    if v.isObject then do
      let method ← vm.objectProperty v name
      if method.isFunction then
        let retval ← vm.functionApply method v
        if retval.isPrimitive then
          return retval
        else
          firstPrimitive v names
      else
        firstPrimitive v names
    else
      typeError vm cannotConvert

def toPrimitive (v : Value D S O) (hint : Bool) : Effect Unit W (Value D S O) :=
  if v.isPrimitive then pure v else firstPrimitive vm v (methods hint)

def toNumber (v : Value D S O) : Effect Unit W D := do
  let primitive ← toPrimitive vm v false
  return primitiveToNumber vm primitive

/-- A primitive value as a string. -/
def primitiveToString (v : Value D S O) : Effect Unit W S :=
  match v with
  | .null => pure vm.stringNull
  | .undefined => pure vm.stringUndefined
  | .boolean b => pure (vm.stringBoolean b)
  | .number n => vm.numberToString n
  | .string s => pure s
  | _ => Effect.throw ()

/-- Whether one primitive value is less than another, if they are comparable. -/
def lessThan (p1 p2 : Value D S O) : Option Bool :=
  match p1, p2 with
  | .string s1, .string s2 => some (vm.stringCmp s1 s2 < 0)
  | _, _ =>
    let num1 := primitiveToNumber vm p1
    let num2 := primitiveToNumber vm p2
    if vm.doubles.isnan num1 || vm.doubles.isnan num2 then none
    else some (vm.doubles.less num1 num2)

def Relation.holds (op : Relation) (p1 p2 : Value D S O) : Bool :=
  match op with
  | .less => lessThan vm p1 p2 = some true
  | .greater => lessThan vm p2 p1 = some true
  | .lessOrEqual => lessThan vm p2 p1 = some false
  | .greaterOrEqual => lessThan vm p1 p2 = some false

/-- The sum of primitive values: a string if one of them is a string. -/
def sum (p1 p2 : Value D S O) : Effect Unit W (Value D S O) :=
  if p1.isString || p2.isString then do
    let s1 ← primitiveToString vm p1
    let s2 ← primitiveToString vm p2
    let s ← vm.concat s1 s2
    return .string s
  else
    pure (.number (vm.doubles.add (primitiveToNumber vm p1) (primitiveToNumber vm p2)))

variable [DecidableEq O]

section Tracking

variable {start : I → Value D S O} {i : I} {w : W}

/-- A pointer points to the value that it had at the start. -/
def Pointer.Holds (start : I → Value D S O) (w : W) : Pointer D S O I → Prop
  | .operand i => vm.operand w i = start i
  | .temporary _ => True

variable {direct hint : Value D S O → Bool} {src1 src2 : I}
  {convert : Pointer D S O I → Value D S O → Code D S O W I (Value D S O)}
  {mean : Value D S O → Effect Unit W (Value D S O)}

end Tracking

/-! ## Primitive values -/

section Primitive

variable {p p1 p2 v : Value D S O} {w w' : W}

omit [DecidableEq O]

end Primitive

/-! ## The instructions -/

section Instructions

variable {start : I → Value D S O} {src1 src2 : I} {w : W}

variable {hint : Value D S O → Bool} {f : Value D S O → Value D S O → Code D S O W I (Value D S O)}
  {g : Value D S O → Value D S O → Effect Unit W (Value D S O)}

end Instructions

end Njs.Vmcode
