import Mathlib.Data.List.Basic
import Njs.Objects.Property
import Njs.Result

/-!
# Calling functions of the script

A call allocates a frame with the `this` value and the arguments, and room for the parameters.
`Function.prototype.call()`, `apply()` and functions that `bind()` returns fill the frame from
different places. When the function is entered, the rest parameter is put into the frame, and the
arguments object is made from it.
-/

namespace Njs.Functions

open Njs.Objects (Value)

/-- An argument. A hole of an array is `none`. -/
abbrev Argument : Type := Option Value

/-- `NJS_MAX_STACK_SIZE` in values. -/
def maxStackValues : ℕ := 256 * 1024 / 16

/-- The space for frames with so many values, and the memory for objects. -/
structure Space where
  native : ℕ → Bool
  lambda : ℕ → Bool
  memory : Bool
  native_le : ∀ n, native n = true → n ≤ maxStackValues
  lambda_le : ∀ n, lambda n = true → n ≤ maxStackValues

/-- `njs_function_lambda_t`. A rest parameter is one of the parameters. -/
structure Lambda where
  nargs : ℕ
  restParameters : Bool
  rest_pos : restParameters = true → 0 < nargs

/-- `njs_function_t` of a function of the script. -/
inductive Function
  | script (lambda : Lambda)
  | bound (target : Function) (argsOffset : UInt8) (values : List Argument)

/-- Why a function is not entered. -/
inductive Failure
  | exception (e : Exception)
  /-- `njs_internal_error`. -/
  | internal (message : String)
  /-- A value that is not in the frame is used. -/
  | fault
  deriving DecidableEq

/-- `njs_native_frame_t`. -/
structure Frame where
  lambda : Lambda
  nargs : UInt32
  arguments : List Argument
  /-- `vm->scopes[NJS_SCOPE_CALLEE_ARGUMENTS]`. -/
  callee : ℕ

/-- A value in a frame when the function is entered. -/
inductive Slot
  | value (v : Argument)
  /-- The array of the rest parameter. -/
  | rest (elements : List Argument)
  deriving DecidableEq

/-- What a function sees when it is entered. -/
structure Entry where
  this : Slot
  parameters : List Slot
  /-- The length and the elements of the arguments object. -/
  length : ℕ
  arguments : List Slot
  deriving DecidableEq

variable (space : Space)

/-- The exception of `njs_function_frame_alloc`. -/
def stackExceeded : Failure :=
  .exception (.rangeError "Maximum call stack size exceeded")

/-- The end of `njs_function_lambda_frame`: the arguments, or the room for them, and values that
are `undefined` for the parameters that are left. -/
def fillArguments (args : Option (List Argument)) (maxArgs : ℕ) : List Argument :=
  match args with
  | some args => args ++ List.replicate (maxArgs - args.length) (some .undefined)
  | none => List.replicate maxArgs (some .undefined)

/-- `njs_function_lambda_frame` with `ctor` not set. -/
def lambdaFrame (function : Function) (this : Argument) (args : Option (List Argument))
    (nargs : ℕ) : Except Failure Frame :=
  match function with
  | .script lambda =>
    let maxArgs := max nargs lambda.nargs
    if space.lambda (1 + maxArgs) then
      .ok ⟨lambda, UInt32.ofNat nargs, this :: fillArguments args maxArgs, 1⟩
    else .error stackExceeded
  | .bound (.bound _ _ _) _ _ => .error (.internal "chain of bound function are not supported")
  | .bound (.script lambda) argsOffset values =>
    let maxArgs := max nargs lambda.nargs
    let n := argsOffset.toNat
    if space.lambda (n + maxArgs) then
      .ok ⟨lambda, UInt32.ofNat nargs + (UInt32.ofNat n - 1),
        values.take n ++ fillArguments args maxArgs, n⟩
    else .error stackExceeded

/-- A loop that reads so many values of a frame. -/
def readValues {α : Type} (values : List α) : ℕ → ℕ → Except Failure (List α)
  | _, 0 => .ok []
  | i, k + 1 =>
    match values[i]? with
    | none => .error .fault
    | some x => (readValues values (i + 1) k).map (x :: ·)

/-- The array of the rest parameter. -/
def restArray (frame : Frame) : Except Failure (List Argument) :=
  let nargs := frame.nargs.toNat
  let n := frame.lambda.nargs
  if nargs ≥ n then readValues frame.arguments n (nargs - n + 1) else .ok []

/-- `njs_function_rest_parameters_init`. -/
def restParametersInit (frame : Frame) : Except Failure (List Slot) :=
  if space.memory then do
    let array ← restArray frame
    if frame.lambda.nargs < frame.arguments.length then
      return (frame.arguments.map .value).set frame.lambda.nargs (.rest array)
    else .error .fault
  else .error (.exception .memoryError)

/-- `njs_function_arguments_object_init`, with the values of the frame. -/
def argumentsObjectInit (nargs : ℕ) (values : List Slot) : Except Failure (List Slot) :=
  if space.memory then readValues values 1 nargs else .error (.exception .memoryError)

/-- The values of the frame when the code of the function begins. -/
def frameValues (frame : Frame) : Except Failure (List Slot) :=
  if frame.lambda.restParameters then restParametersInit space frame
  else .ok (frame.arguments.map .value)

/-- `njs_function_lambda_call` up to the code of the function, and what this code can read. -/
def lambdaCall (frame : Frame) : Except Failure Entry := do
  let values ← frameValues space frame
  let arguments ← argumentsObjectInit space frame.nargs.toNat values
  let parameters ← readValues values 1 frame.lambda.nargs
  match values[0]? with
  | none => .error .fault
  | some this => return ⟨this, parameters, frame.nargs.toNat, arguments⟩

/-- `njs_function_frame` and `njs_function_frame_invoke` of a function of the script. -/
def functionInvoke (function : Function) (this : Argument) (args : List Argument) :
    Except Failure Entry := do
  let frame ← lambdaFrame space function this (some args) args.length
  lambdaCall space frame

/-- The arguments of a call in the script are put into the frame one after another. -/
def putArguments : List Argument → ℕ → List Argument → List Argument
  | values, _, [] => values
  | values, i, v :: args => putArguments (values.set i v) (i + 1) args

/-- A call of a function in the script. -/
def functionCall (function : Function) (args : List Argument) : Except Failure Entry := do
  let frame ← lambdaFrame space function (some .undefined) none args.length
  lambdaCall space { frame with arguments := putArguments frame.arguments frame.callee args }

/-- The frame of `Function.prototype.call()`, `apply()` or `bind()` with so many arguments. -/
def nativeFrame (count : ℕ) : Except Failure Unit :=
  if space.native (1 + count) then .ok () else .error stackExceeded

/-- `njs_function_prototype_call` with the arguments of the script. -/
def prototypeCall (function : Function) (args : List Argument) : Except Failure Entry := do
  nativeFrame space args.length
  match args with
  | [] => functionInvoke space function (some .undefined) []
  | this :: args => functionInvoke space function this args

/-- An object with a length, and with values that lookups of its properties find. -/
structure ArrayLike where
  length : ℕ
  property : ℕ → Option Value

/-- The second argument of `Function.prototype.apply()`. -/
inductive ApplyArgument
  | nullOrUndefined
  | array (start : List Argument)
  | object (o : ArrayLike)
  | other

/-- The loop of `njs_function_prototype_apply` over the properties of an object. -/
def arrayLikeLoop (o : ArrayLike) : ℕ → ℕ → List Argument
  | _, 0 => []
  | i, k + 1 => some ((o.property i).getD .undefined) :: arrayLikeLoop o (i + 1) k

/-- `njs_function_prototype_apply` with two arguments. -/
def prototypeApply (function : Function) (this : Argument) (arrLike : ApplyArgument) :
    Except Failure Entry := do
  nativeFrame space 2
  match arrLike with
  | .nullOrUndefined => functionInvoke space function this []
  | .array start => functionInvoke space function this start
  | .object o =>
    if space.memory then functionInvoke space function this (arrayLikeLoop o 0 o.length)
    else .error (.exception .memoryError)
  | .other => .error (.exception
      (.typeError "second argument is not an array-like object" []))

/-- `njs_function_prototype_bind` with the arguments of the script. -/
def prototypeBind (function : Function) (args : List Argument) : Except Failure Function := do
  nativeFrame space args.length
  if space.memory then
    let values := if args = [] then [some .undefined] else args
    return .bound function (UInt8.ofNat values.length) values
  else .error (.exception .memoryError)

end Njs.Functions
