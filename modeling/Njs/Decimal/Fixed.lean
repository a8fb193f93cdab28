import Njs.Decimal.Accuracy
import Njs.Decimal.DiyFp
import Njs.Str.Value

/-!
# The digits of `toFixed`

`njs_fixed_dtoa` finds the digits of a double with a given number of digits behind the point, in
one of five ways. The sums and products of 64 bits, and the bytes of the buffers, are checked.
-/

namespace Njs.Decimal

/-- A value of type `uint64_t` that must not be reduced. -/
def fits64 (n : ℕ) : Result ℕ := if n < 2 ^ 64 then .ok n else .error .fault

/-- A digit of type `char`. -/
def digitChar (digit : ℕ) : UInt8 := 48 + UInt8.ofNat digit

/-! ## Numbers of two words -/

/-- `njs_diyu128_t`. -/
structure Diyu128 where
  high : ℕ
  low : ℕ

/-- The number. -/
def Diyu128.value (v : Diyu128) : ℕ := v.high * 2 ^ 64 + v.low

/-- `njs_diyu128_mul`. What is shifted out of the last accumulator would be lost. -/
def Diyu128.mul (v : Diyu128) (multiplicand : ℕ) : Result Diyu128 := do
  let accumulator ← fits64 (v.low % 2 ^ 32 * multiplicand)
  let part := accumulator % 2 ^ 32
  let accumulator ← fits64 (accumulator / 2 ^ 32 + v.low / 2 ^ 32 * multiplicand)
  let low := accumulator * 2 ^ 32 % 2 ^ 64 + part
  let accumulator ← fits64 (accumulator / 2 ^ 32 + v.high % 2 ^ 32 * multiplicand)
  let part := accumulator % 2 ^ 32
  let accumulator ← fits64 (accumulator / 2 ^ 32 + v.high / 2 ^ 32 * multiplicand)
  let high ← fits64 (accumulator * 2 ^ 32 + part)
  .ok ⟨high, low⟩

/-- `njs_diyu128_shift` to the right. -/
def Diyu128.shift (v : Diyu128) (shift : ℕ) : Diyu128 :=
  if 0 < shift then
    if shift = 64 then ⟨0, v.high⟩
    else ⟨v.high / 2 ^ shift, v.low / 2 ^ shift + v.high * 2 ^ (64 - shift) % 2 ^ 64⟩
  else v

/-- A value that must fit in an `int`. -/
def fitsInt (n : ℕ) : Result ℕ := if n < 2 ^ 31 then .ok n else .error .fault

/-- `njs_diyu128_div_mod_pow2`, with the digit. -/
def Diyu128.divModPow2 (v : Diyu128) (power : ℕ) : Result (ℕ × Diyu128) :=
  if 64 ≤ power then do
    let result ← fitsInt (v.high / 2 ^ (power - 64))
    .ok (result, ⟨v.high - result * 2 ^ (power - 64), v.low⟩)
  else do
    let partLow := v.low / 2 ^ power
    let partHigh := v.high * 2 ^ (64 - power) % 2 ^ 64
    let result ← fitsInt ((partLow + partHigh) % 2 ^ 64)
    .ok (result, ⟨0, v.low - partLow * 2 ^ power⟩)

/-- `njs_diyu128_is_zero`. -/
def Diyu128.isZero (v : Diyu128) : Bool := v.low = 0 ∧ v.high = 0

/-- `njs_diyu128_bit_at`. -/
def Diyu128.bitAt (v : Diyu128) (pos : ℕ) : ℕ :=
  if 64 ≤ pos then v.high / 2 ^ (pos - 64) % 2 else v.low / 2 ^ pos % 2

/-! ## The buffer -/

/-- A byte is written behind the others into the buffer of 128 bytes. -/
def put (start : List UInt8) (c : UInt8) : Result (List UInt8) :=
  if start.length < 128 then .ok (start ++ [c]) else .error .fault

/-- The first loop of `njs_fill_digits32`. -/
def fillLoop (number : ℕ) (start : List UInt8) : Result (List UInt8) :=
  if number = 0 then .ok start
  else do
    let start ← put start (digitChar (number % 10))
    fillLoop (number / 10) start
termination_by number

/-- The second loop of `njs_fill_digits32`, which exchanges the bytes. -/
def swapLoop (start : List UInt8) (i j : ℕ) : Result (List UInt8) :=
  if i < j then
    match start[i]?, start[j]? with
    | some c, some d => swapLoop ((start.set i d).set j c) (i + 1) (j - 1)
    | _, _ => .error .fault
  else .ok start
termination_by j - i

/-- `njs_fill_digits32`. The last index is of type `size_t`. -/
def fillDigits32 (number : ℕ) (start : List UInt8) : Result (List UInt8) := do
  let filled ← fillLoop number start
  swapLoop filled start.length ((filled.length + 2 ^ 64 - 1) % 2 ^ 64)

/-- The loop of `njs_fill_digits32_fixed_length`, which goes backwards. -/
def fixedLoop (number : ℕ) : ℕ → List UInt8 → List UInt8
  | 0, p => p
  | i + 1, p => fixedLoop (number / 10) i (digitChar (number % 10) :: p)

/-- `njs_fill_digits32_fixed_length`. -/
def fillDigits32FixedLength (number requestedLength : ℕ) (start : List UInt8) :
    Result (List UInt8) :=
  if start.length + requestedLength ≤ 128 then
    .ok (start ++ fixedLoop number requestedLength [])
  else .error .fault

/-- `njs_fill_digits64`. -/
def fillDigits64 (number : ℕ) (start : List UInt8) : Result (List UInt8) := do
  let part2 := number % 10000000
  let part1 := number / 10000000 % 10000000
  let part0 := number / 10000000 / 10000000 % 2 ^ 32
  if part0 ≠ 0 then
    let start ← fillDigits32 part0 start
    let start ← fillDigits32FixedLength part1 7 start
    fillDigits32FixedLength part2 7 start
  else if part1 ≠ 0 then
    let start ← fillDigits32 part1 start
    fillDigits32FixedLength part2 7 start
  else fillDigits32 part2 start

/-- `njs_fill_digits64_fixed_length`. -/
def fillDigits64FixedLength (number : ℕ) (start : List UInt8) : Result (List UInt8) := do
  let part2 := number % 10000000
  let part1 := number / 10000000 % 10000000
  let part0 := number / 10000000 / 10000000 % 2 ^ 32
  let start ← fillDigits32FixedLength part0 3 start
  let start ← fillDigits32FixedLength part1 7 start
  fillDigits32FixedLength part2 7 start

/-- The loop of `njs_dtoa_round_up`, and whether it returns. -/
def carryLoop (start : List UInt8) : ℕ → List UInt8 × Bool
  | 0 => (start, false)
  | i + 1 =>
    if start.getD (i + 1) 0 ≠ 58 then (start, true)
    else carryLoop ((start.set (i + 1) 48).set i (start.getD i 0 + 1)) i

/-- `njs_dtoa_round_up`, with the point. -/
def roundUp (start : List UInt8) (point : ℤ) : List UInt8 × ℤ :=
  if start.length = 0 then ([49], 1)
  else
    let i := start.length - 1
    let carried := carryLoop (start.set i (start.getD i 0 + 1)) i
    if carried.2 = false ∧ carried.1.getD 0 0 = 58 then (carried.1.set 0 49, point + 1)
    else (carried.1, point)

/-- The loop of `njs_fill_fractionals` for one word, with what is left of the fraction and of its
exponent. -/
def fractionals64 (fractionals n : ℕ) (start : List UInt8) :
    ℕ → Result (ℕ × ℕ × List UInt8)
  | 0 => .ok (fractionals, n, start)
  | i + 1 =>
    if fractionals = 0 then .ok (fractionals, n, start)
    else if n = 0 then .error .fault
    else do
      let fractionals ← fits64 (fractionals * 5)
      let digit := fractionals / 2 ^ (n - 1)
      let start ← put start (digitChar digit)
      fractionals64 (fractionals - digit * 2 ^ (n - 1)) (n - 1) start i

/-- The loop of `njs_fill_fractionals` for two words. -/
def fractionals128 (fractionals : Diyu128) (n : ℕ) (start : List UInt8) :
    ℕ → Result (Diyu128 × ℕ × List UInt8)
  | 0 => .ok (fractionals, n, start)
  | i + 1 =>
    if fractionals.isZero then .ok (fractionals, n, start)
    else if n = 0 then .error .fault
    else do
      let fractionals ← fractionals.mul 5
      let (digit, fractionals) ← fractionals.divModPow2 (n - 1)
      let start ← put start (digitChar digit)
      fractionals128 fractionals (n - 1) start i

/-- `njs_fill_fractionals`, where the exponent is negated. -/
def fillFractionals (fractionals exponent frac : ℕ) (start : List UInt8) (point : ℤ) :
    Result (List UInt8 × ℤ) :=
  if exponent ≤ 64 then do
    let (fractionals, n, start) ← fractionals64 fractionals exponent start frac
    if 0 < n ∧ fractionals / 2 ^ (n - 1) % 2 = 1 then .ok (roundUp start point)
    else .ok (start, point)
  else do
    let shifted := (⟨fractionals, 0⟩ : Diyu128).shift (exponent - 64)
    let (fractionals, n, start) ← fractionals128 shifted 128 start frac
    if n = 0 then .error .fault
    else if fractionals.bitAt (n - 1) = 1 then .ok (roundUp start point)
    else .ok (start, point)

/-- `njs_trim_zeroes`. -/
def trimZeroes (start : List UInt8) (point : ℤ) : List UInt8 × ℤ :=
  let trimmed := start.rdropWhile (· = 48)
  let n := (trimmed.takeWhile (· = 48)).length
  (trimmed.drop n, point - n)

/-- `njs_d2diyfp` of a positive double. -/
def d2diyfp (word : ℕ) : DiyFp :=
  if word / 2 ^ 52 ≠ 0 then ⟨word % 2 ^ 52 + 2 ^ 52, (word / 2 ^ 52 : ℕ) - 1075⟩
  else ⟨word % 2 ^ 52, -1074⟩

/-- `njs_fixed_dtoa` up to the zeros. -/
def fixedDigits (v : DiyFp) (frac : ℕ) : Result (List UInt8 × ℤ) :=
  if 64 < v.exp + 53 then do
    let (quotient, remainder) ←
      if 17 < v.exp then do
        let dividend ← fits64 (v.significand * 2 ^ (v.exp - 17).toNat)
        let remainder ← fits64 (dividend % 0xb1a2bc2ec5 * 2 ^ 17)
        .ok (dividend / 0xb1a2bc2ec5, remainder)
      else do
        let divisor ← fits64 (0xb1a2bc2ec5 * 2 ^ (17 - v.exp).toNat)
        let remainder ← fits64 (v.significand % divisor * 2 ^ v.exp.toNat)
        .ok (v.significand / divisor, remainder)
    if 2 ^ 32 ≤ quotient then .error .fault
    else do
      let start ← fillDigits32 quotient []
      let start ← fillDigits64FixedLength remainder start
      .ok (start, start.length)
  else if 0 ≤ v.exp then do
    let significand ← fits64 (v.significand * 2 ^ v.exp.toNat)
    let start ← fillDigits64 significand []
    .ok (start, start.length)
  else if -53 < v.exp then do
    let integral := v.significand / 2 ^ (-v.exp).toNat
    let fract := v.significand - integral * 2 ^ (-v.exp).toNat
    let start ← if 2 ^ 32 - 1 < integral then fillDigits64 integral []
      else fillDigits32 integral []
    fillFractionals fract (-v.exp).toNat frac start start.length
  else if v.exp < -128 then .ok ([], -frac)
  else fillFractionals v.significand (-v.exp).toNat frac [] 0

/-- `njs_fixed_dtoa` of a positive double, the digits and the point. A byte zero is written behind
the digits. -/
def fixedDtoa (word frac : ℕ) : Result (List UInt8 × ℤ) := do
  let found ← fixedDigits (d2diyfp word) frac
  let trimmed := trimZeroes found.1 found.2
  if 128 ≤ trimmed.1.length then .error .fault
  else if trimmed.1.length = 0 then .ok (trimmed.1, -frac)
  else .ok trimmed

/-- A finite double. -/
structure Double where
  negative : Bool
  word : ℕ
  finite : word < double.infinity

/-- The exact value. -/
def Double.value (v : Double) : ℚ :=
  if v.negative then -double.value v.word else double.value v.word

/-- `njs_number_prototype_to_fixed` of a finite double. What `njs_number_to_string` returns is a
parameter. -/
def prototypeToFixed (env : Env) (numberToString : Double → Result Str.StringValue)
    (number : Double) (frac : ℤ) : Result Str.StringValue :=
  if frac < 0 ∨ 100 < frac then
    .error (.throw (.rangeError "digits argument must be between 0 and 100"))
  else if 10 ^ 21 ≤ |number.value| then numberToString number
  else do
    let (digits, point) ← fixedDtoa number.word frac.toNat
    let length : ℤ := digits.length
    let leading := if point ≤ 0 then -point + 1 else 0
    let point := if point ≤ 0 then 1 else point
    let trailing := if leading + length < point + frac then point + frac - length - leading else 0
    let sign : ℤ := if number.value < 0 then 1 else 0
    let size := leading + length + trailing + sign + if 0 < frac then 1 else 0
    let buffer := List.replicate leading.toNat 48 ++ digits ++ List.replicate trailing.toNat 48
    if 128 < buffer.length ∨ buffer.length < (point + frac).toNat then .error .fault
    else do
      let p ← Str.stringAlloc env size.toNat size.toNat
      let minus := if number.value < 0 then [45] else []
      let fraction := if 0 < frac then 46 :: (buffer.drop point.toNat).take frac.toNat else []
      p.fill (minus ++ buffer.take point.toNat ++ fraction)

end Njs.Decimal
