import Njs.Integers.Parsers
import Njs.Result
import Njs.Decimal.Accuracy

/-!
# Formatted output

`njs_vsprintf` and `njs_integer` for 64-bit machines, but for the conversion `%f`. A write at the
end of the buffer and a read behind the end of a format, of an argument or of the arguments is a
fault.
-/

namespace Njs.Format

/-- A buffer `[buf, end)`: the bytes that were written, and the room that is left. -/
structure Buffer where
  written : List UInt8
  room : ℕ
  deriving DecidableEq

/-- What is passed for a conversion: a `u_char *` with the bytes that it points at, a
`njs_str_t *`, a `size_t`, or the 64 bits that hold an integer. -/
inductive Argument
  | string (p : Option (List UInt8))
  | str (v : Option (List UInt8))
  | size (n : ℕ)
  | integer (x : UInt64)

/-- `njs_sprintf_t` with the variable `sign` of `njs_vsprintf`. The digits are those of `hex`, or
decimal ones. -/
structure Spf where
  sign : Bool
  hex : Option (List UInt8)
  width : ℕ
  maxWidth : Bool
  padding : UInt8

/-- `hexadecimal`, and `HEXADECIMAL` in upper case. -/
def hexadecimal (upper : Bool) : List UInt8 :=
  [48, 49, 50, 51, 52, 53, 54, 55, 56, 57] ++
    if upper then [65, 66, 67, 68, 69, 70] else [97, 98, 99, 100, 101, 102]

/-- `NJS_INT64_T_LEN`, and `NJS_INT_T_LEN`. -/
def int64Length : ℕ := 20

/-! ## Writing -/

/-- `*buf++ = c`. -/
def Buffer.put (buf : Buffer) (c : UInt8) : Result Buffer :=
  if buf.room = 0 then .error .fault else .ok ⟨buf.written ++ [c], buf.room - 1⟩

/-- Writes bytes one after the other. -/
def Buffer.puts (buf : Buffer) : List UInt8 → Result Buffer
  | [] => .ok buf
  | c :: cs => buf.put c >>= fun buf => buf.puts cs

/-- The loop of `%s`. -/
def copyLoop (buf : Buffer) : List UInt8 → Result Buffer
  | [] => .error .fault
  | c :: p =>
    if c = 0 ∨ buf.room = 0 then .ok buf else buf.put c >>= fun buf => copyLoop buf p

/-- `njs_vsprintf` from the label `copy` on. -/
def copy (buf : Buffer) (p : List UInt8) (length : ℕ) : Result Buffer :=
  let size := min buf.room length
  if p.length < size then .error .fault else buf.puts (p.take size)

/-- The loops that put digits in front of `p`, which has room for `free` more of them. -/
def digitLoop (base : ℕ) (digit : ℕ → UInt8) : ℕ → ℕ → List UInt8 → Result (List UInt8)
  | 0, _, _ => .error .fault
  | free + 1, n, p =>
    let p := digit (n % base) :: p
    if n / base = 0 then .ok p else digitLoop base digit free (n / base) p

/-- The digits of `njs_integer`. -/
def integerDigits (spf : Spf) (ui64 : ℕ) : Result (List UInt8) :=
  match spf.hex with
  | none => digitLoop 10 (fun d => 48 + d.toUInt8) int64Length ui64 []
  | some hex => digitLoop 16 (fun d => hex.getD d 0) int64Length ui64 []

/-- How far `buf + (width - length)` is from `buf`, where the difference is a `size_t`. -/
def paddingEnd (width length : ℕ) : ℤ := Integers.toInt64 (unsigned 64 (width - length))

/-- The padding of `njs_integer` in front of so many digits. -/
def pad (spf : Spf) (buf : Buffer) (length : ℕ) : Result Buffer :=
  if spf.width ≠ 0 then
    buf.puts (List.replicate (min (paddingEnd spf.width length) buf.room).toNat spf.padding)
  else .ok buf

/-- `njs_integer`. -/
def integer (spf : Spf) (buf : Buffer) (ui64 : ℕ) : Result Buffer := do
  let p ← integerDigits spf ui64
  let buf ← pad spf buf p.length
  buf.puts (p.take (min p.length buf.room))

/-- `njs_vsprintf` from the label `number` on, for the 64 bits of `i64` or of `ui64`. The negation
of the least number gives the number again. -/
def number (spf : Spf) (buf : Buffer) (x : UInt64) : Result Buffer :=
  if spf.sign ∧ 2 ^ 63 ≤ x.toNat then
    buf.put 45 >>= fun buf => integer spf buf (-x).toNat
  else integer spf buf x.toNat

/-! ## Reading the format -/

/-- The loop for the width, which has 32 bits. -/
def widthLoop (width : ℕ) : List UInt8 → ℕ × List UInt8
  | c :: fmt =>
    if 48 ≤ c ∧ c ≤ 57 then widthLoop ((width * 10 + (c.toNat - 48)) % 2 ^ 32) fmt
    else (width, c :: fmt)
  | [] => (width, [])

/-- The loop for the flags, and the digits behind a dot, which only `%f` uses. -/
def flagsLoop (spf : Spf) : List UInt8 → Spf × List UInt8
  | c :: fmt =>
    if c = 117 then flagsLoop { spf with sign := false } fmt
    else if c = 109 then flagsLoop { spf with maxWidth := true } fmt
    else if c = 88 then flagsLoop { spf with hex := some (hexadecimal true), sign := false } fmt
    else if c = 120 then flagsLoop { spf with hex := some (hexadecimal false), sign := false } fmt
    else if c = 46 then (spf, fmt.dropWhile fun c => 48 ≤ c ∧ c ≤ 57)
    else (spf, c :: fmt)
  | [] => (spf, [])

/-- `va_arg(args, u_char *)`. -/
def vaString : List Argument → Result (Option (List UInt8) × List Argument)
  | .string p :: args => .ok (p, args)
  | _ => .error .fault

/-- `va_arg(args, njs_str_t *)`. -/
def vaStr : List Argument → Result (Option (List UInt8) × List Argument)
  | .str v :: args => .ok (v, args)
  | _ => .error .fault

/-- `va_arg(args, size_t)` for the length of a string. -/
def vaSize : List Argument → Result (ℕ × List Argument)
  | .size n :: args => .ok (n, args)
  | _ => .error .fault

/-- `va_arg` for an integer. -/
def vaInteger : List Argument → Result (UInt64 × List Argument)
  | .integer x :: args => .ok (x, args)
  | _ => .error .fault

/-- The value of `i64`, or of `ui64` without a sign. An `int`, an `int32_t` and the unsigned types
of that size have 32 bits. -/
def extend (sign : Bool) (c : UInt8) (x : UInt64) : UInt64 :=
  if c = 100 ∨ c = 68 then
    let d := x.toNat % 2 ^ 32
    if sign ∧ 2 ^ 31 ≤ d then .ofNat (d + (2 ^ 64 - 2 ^ 32)) else .ofNat d
  else x

/-- The variables that the `switch` for the integers leaves for the letter `c`, or nothing for
the other letters. -/
def integerConversion (spf : Spf) (c : UInt8) : Option Spf :=
  if c = 79 ∨ c = 84 then some { spf with sign := true }
  else if c = 122 ∨ c = 100 ∨ c = 108 ∨ c = 68 ∨ c = 76 then some spf
  else if c = 105 then some (if spf.maxWidth then { spf with width := int64Length } else spf)
  else if c = 98 then some { spf with sign := false }
  else if c = 112 then some { spf with sign := false, hex := some (hexadecimal true) }
  else none

/-- The state of the loop of `njs_vsprintf`. -/
structure State where
  buf : Buffer
  fmt : List UInt8
  args : List Argument

/-- The letters that `njs_vsprintf` looks at behind the flags. -/
def convert (spf : Spf) (s : State) : Result State :=
  match s.fmt with
  | [] => .error .fault
  | c :: fmt =>
    match integerConversion spf c with
    | some spf => do
      let (x, args) ← vaInteger s.args
      let buf ← number spf s.buf (extend spf.sign c x)
      return { buf, fmt, args }
    | none =>
      -- `%f` is not part of the model.
      if c = 102 then .error .fault
      else if c = 99 then do
        let (d, args) ← vaInteger s.args
        let buf ← s.buf.put d.toUInt8
        return { buf, fmt, args }
      else do
        let buf ← s.buf.put (if c = 90 then 0 else if c = 110 then 10 else c)
        return { s with buf, fmt }

/-- The conversion behind a percent sign. -/
def conversion (s : State) : Result State :=
  match s.fmt with
  | [] => .error .fault
  | c :: fmt =>
    if c = 86 then do
      let (v, args) ← vaStr s.args
      let buf ← v.elim (.ok s.buf) fun start => copy s.buf start start.length
      return { buf, fmt, args }
    else if c = 115 then do
      let (p, args) ← vaString s.args
      let buf ← p.elim (.ok s.buf) (copyLoop s.buf)
      return { buf, fmt, args }
    else if c = 42 then do
      let (length, args) ← vaSize s.args
      match fmt with
      | [] => .ok { s with fmt, args }
      | c' :: fmt' =>
        if c' ≠ 115 then .ok { s with fmt, args }
        else do
          let (p, args) ← vaString args
          let buf ← p.elim (.ok s.buf) fun p => copy s.buf p length
          return { buf, fmt := fmt', args }
    else
      let (width, fmt) := widthLoop 0 s.fmt
      let (spf, fmt) := flagsLoop ⟨true, none, width, false, if c = 48 then 48 else 32⟩ fmt
      convert spf { s with fmt }

/-- The loop of `njs_vsprintf`, with fuel for its iterations. -/
def loop : ℕ → State → Result Buffer
  | 0, _ => .error .fault
  | fuel + 1, s =>
    match s.fmt with
    | [] => .ok s.buf
    | c :: fmt =>
      if s.buf.room = 0 then .ok s.buf
      else if c ≠ 37 then do
        let buf ← s.buf.put c
        loop fuel { s with buf, fmt }
      else do
        let s ← conversion { s with fmt }
        loop fuel s

end Njs.Format

/-!
## The bytes that fit

What a format and its arguments stand for is one sequence of bytes. Every buffer with room for a
byte gets the first bytes of it, as many as fit.
-/

namespace Njs.Format

/-! ## What a format stands for -/

/-- The flags of an integer conversion: `u`, `m`, `X` and `x`. -/
inductive Flag
  | unsigned | max | upper | lower
  deriving DecidableEq

/-- The letters of the integer conversions, `O`, `T`, `z`, `d`, `l`, `D`, `L`, `i`, `b`
and `p`. -/
inductive Letter
  | offset | time | size | int | long | int32 | int64 | word | bool | pointer
  deriving DecidableEq

/-- The flag in a format. -/
def Flag.byte : Flag → UInt8
  | .unsigned => 117
  | .max => 109
  | .upper => 88
  | .lower => 120

/-- The letter in a format. -/
def Letter.byte : Letter → UInt8
  | .offset => 79
  | .time => 84
  | .size => 122
  | .int => 100
  | .long => 108
  | .int32 => 68
  | .int64 => 76
  | .word => 105
  | .bool => 98
  | .pointer => 112

/-- The bits of the integers of a conversion. -/
def Letter.bits : Letter → ℕ
  | .int | .int32 => 32
  | _ => 64

/-- The width and the flags that stand between a percent sign and a letter. -/
structure Modifiers where
  width : List UInt8
  flags : List Flag
  digits : ∀ c ∈ width, 48 ≤ c ∧ c ≤ 57

/-- The modifiers in a format. -/
def Modifiers.text (m : Modifiers) : List UInt8 := m.width ++ m.flags.map Flag.byte

/-- The last of the flags for hexadecimal digits. -/
def hexFlag (flags : List Flag) : Option (List UInt8) :=
  flags.reverse.findSome? fun
    | .upper => some (hexadecimal true)
    | .lower => some (hexadecimal false)
    | _ => none

/-- What the modifiers and the letter of an integer conversion ask for. The width has 32 bits. -/
def Modifiers.spf (m : Modifiers) (letter : Letter) : Spf where
  sign := match letter with
    | .offset | .time => true
    | .bool | .pointer => false
    | _ => m.flags.all (· = .max)
  hex := if letter = .pointer then some (hexadecimal true) else hexFlag m.flags
  width := if letter = .word ∧ .max ∈ m.flags then int64Length else digitsValue m.width % 2 ^ 32
  maxWidth := .max ∈ m.flags
  padding := if m.width.head? = some 48 then 48 else 32

/-- The number that is passed for an integer conversion. -/
def Modifiers.value (m : Modifiers) (letter : Letter) (x : UInt64) : ℤ :=
  if (m.spf letter).sign then Int.bmod x.toNat (2 ^ letter.bits)
  else (x.toNat % 2 ^ letter.bits : ℕ)

/-- The digits of a number, at least one. -/
def numeral (base : ℕ) (digit : ℕ → UInt8) (n : ℕ) : List UInt8 :=
  if n = 0 then [digit 0] else (Nat.digits base n).reverse.map digit

/-- The digits of `njs_integer`. -/
def Spf.numeral (spf : Spf) (n : ℕ) : List UInt8 :=
  match spf.hex with
  | none => Format.numeral 10 (fun d => 48 + d.toUInt8) n
  | some hex => Format.numeral 16 (fun d => hex.getD d 0) n

/-- The digits of a number, padded to the width. -/
def Spf.padded (spf : Spf) (n : ℕ) : List UInt8 :=
  List.replicate (spf.width - (spf.numeral n).length) spf.padding ++ spf.numeral n

/-- A number as it is written. The sign stands in front of the padding. -/
def Spf.text (spf : Spf) (i : ℤ) : List UInt8 :=
  if i < 0 then 45 :: spf.padded i.natAbs else spf.padded i.natAbs

/-- A format over the integer, string, character and `%V` conversions, the arguments that it
takes, and all bytes that it stands for. -/
inductive Matched : List UInt8 → List Argument → List UInt8 → Prop
  | nil (args : List Argument) : Matched [] args []
  | plain {c : UInt8} {fmt : List UInt8} {args : List Argument} {out : List UInt8} (hc : c ≠ 37)
      (h : Matched fmt args out) : Matched (c :: fmt) args (c :: out)
  | str {fmt : List UInt8} {args : List Argument} {out : List UInt8} (v : Option (List UInt8))
      (h : Matched fmt args out) : Matched (37 :: 86 :: fmt) (.str v :: args) (v.getD [] ++ out)
  | string {fmt : List UInt8} {args : List Argument} {out p rest : List UInt8} (hp : 0 ∉ p)
      (h : Matched fmt args out) :
      Matched (37 :: 115 :: fmt) (.string (some (p ++ 0 :: rest)) :: args) (p ++ out)
  | nullString {fmt : List UInt8} {args : List Argument} {out : List UInt8}
      (h : Matched fmt args out) : Matched (37 :: 115 :: fmt) (.string none :: args) out
  | part {fmt : List UInt8} {args : List Argument} {out p : List UInt8} {n : ℕ}
      (hp : n ≤ p.length) (h : Matched fmt args out) :
      Matched (37 :: 42 :: 115 :: fmt) (.size n :: .string (some p) :: args) (p.take n ++ out)
  | nullPart {fmt : List UInt8} {args : List Argument} {out : List UInt8} (n : ℕ)
      (h : Matched fmt args out) :
      Matched (37 :: 42 :: 115 :: fmt) (.size n :: .string none :: args) out
  | char {fmt : List UInt8} {args : List Argument} {out : List UInt8} (m : Modifiers)
      (d : UInt64) (h : Matched fmt args out) :
      Matched (37 :: (m.text ++ 99 :: fmt)) (.integer d :: args) (d.toUInt8 :: out)
  | zero {fmt : List UInt8} {args : List Argument} {out : List UInt8} (m : Modifiers)
      (h : Matched fmt args out) : Matched (37 :: (m.text ++ 90 :: fmt)) args (0 :: out)
  | newline {fmt : List UInt8} {args : List Argument} {out : List UInt8} (m : Modifiers)
      (h : Matched fmt args out) : Matched (37 :: (m.text ++ 110 :: fmt)) args (10 :: out)
  | percent {fmt : List UInt8} {args : List Argument} {out : List UInt8} (m : Modifiers)
      (h : Matched fmt args out) : Matched (37 :: (m.text ++ 37 :: fmt)) args (37 :: out)
  | integer {fmt : List UInt8} {args : List Argument} {out : List UInt8} (m : Modifiers)
      (letter : Letter) (x : UInt64) (h : Matched fmt args out) :
      Matched (37 :: (m.text ++ letter.byte :: fmt)) (.integer x :: args)
        ((m.spf letter).text (m.value letter x) ++ out)

/-! ## Writing what fits -/

/-- The buffer with the first of the bytes, as many as fit. -/
def Buffer.append (buf : Buffer) (out : List UInt8) : Buffer :=
  ⟨buf.written ++ out.take buf.room, buf.room - out.length⟩

variable {buf : Buffer} {p out out' fmt rest : List UInt8} {c : UInt8} {args : List Argument}
  {n : ℕ} {spf : Spf}

@[simp] theorem append_nil (buf : Buffer) : buf.append [] = buf := by simp [Buffer.append]

theorem put_eq (h : buf.room ≠ 0) : buf.put c = .ok (buf.append [c]) := by
  obtain ⟨room, hroom⟩ := Nat.exists_eq_succ_of_ne_zero h
  simp [Buffer.put, Buffer.append, hroom]

/-- The variables behind the flags. -/
def Spf.flagged (spf : Spf) (flags : List Flag) : Spf :=
  { spf with
    sign := spf.sign && flags.all (· = .max)
    hex := (hexFlag flags).or spf.hex
    maxWidth := spf.maxWidth || .max ∈ flags }

/-- What `njs_vsprintf` makes of the width and the flags. -/
def Modifiers.read (m : Modifiers) : Spf :=
  Spf.flagged ⟨true, none, digitsValue m.width % 2 ^ 32, false,
    if m.width.head? = some 48 then 48 else 32⟩ m.flags

variable {fmt' : List UInt8} {args' : List Argument} {fuel : ℕ}

end Njs.Format
