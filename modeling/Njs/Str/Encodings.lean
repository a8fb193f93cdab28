import Njs.Lib.BitGroups
import Njs.Str.Value

/-!
# Hexadecimal and base64 texts of byte strings

`String.prototype.toString(encoding)` and `String.bytesFrom(string, encoding)`.
The loops of the source are compared with one description of all three
encodings: the bits of the bytes, cut into digits of four or six bits.
-/

namespace Njs.Str

/-- An argument of a native function, as far as the functions here look at it. -/
inductive Arg
  | string (v : StringValue)
  /-- A value that is not a string, `undefined` included. -/
  | other
  deriving DecidableEq

/-- The receiver of a method of `String.prototype`. -/
inductive This
  | string (v : StringValue)
  /-- A `String` object with its primitive value. -/
  | objectString (v : StringValue)
  /-- Any other value, with the name that `njs_type_string` gives its type. -/
  | other (typeName : List UInt8)
  deriving DecidableEq

/-- The value `njs_string_empty`. -/
def emptyString : StringValue :=
  .short { size := 0, length := 0, start := List.replicate 14 0, start_length := rfl }

/-- The byte of a character of a literal in the source. -/
def byte (c : Char) : UInt8 := c.toNat.toUInt8

/-! ## Hexadecimal -/

/-- The `hex` array of `njs_string_hex`. -/
def hexDigits : List UInt8 :=
  ['0', '1', '2', '3', '4', '5', '6', '7', '8', '9', 'a', 'b', 'c', 'd', 'e', 'f'].map byte

/-- The loop of `njs_string_hex`. -/
def hexLoop : List UInt8 → List UInt8
  | [] => []
  | c :: start =>
    hexDigits.getD (c >>> 4).toNat 0 :: hexDigits.getD (c &&& 0x0F).toNat 0 :: hexLoop start

/-- `njs_string_hex`. -/
def hex (env : Env) (src : List UInt8) : Result StringValue := do
  let p ← stringAlloc env (src.length * 2) (src.length * 2)
  p.fill (hexLoop src)

/-- `njs_char_to_hex`: the value of a digit, or `none` for `-1`. -/
def charToHex (c : UInt8) : Option ℕ :=
  let c := c ||| 0x20
  -- Values less than '0' become >= 208.
  let c := c - byte '0'
  if c > 9 then
    -- Values less than 'a' become >= 159.
    let c := c - (byte 'a' - byte '0')
    if c > 5 then none else some (c + 10).toNat
  else some c.toNat

/-- The loop of `njs_string_decode_hex`, with its variables `i` and `n`. -/
def decodeHexLoop : List UInt8 → ℕ → ℕ → List UInt8
  | [], _, _ => []
  | b :: start, i, n =>
    match charToHex b with
    | none => []
    | some c =>
      let n := n * 16 + c
      if i &&& 1 ≠ 0 then n.toUInt8 :: decodeHexLoop start (i + 1) 0
      else decodeHexLoop start (i + 1) n

/-- The allocation, the writes and the final `njs_string_truncate` of both decoders. -/
def decoded (env : Env) (dstLen : ℕ) (out : List UInt8) : Result StringValue := do
  let value ← stringAlloc env dstLen 0
  let value ← value.fill out
  if out.length ≠ dstLen then truncate env value out.length else pure value

/-- `njs_string_decode_hex`. -/
def decodeHex (env : Env) (src : List UInt8) : Result StringValue :=
  if src.length = 0 then .ok emptyString
  else decoded env (src.length / 2) (decodeHexLoop src 0 0)

/-! ## Base64 -/

/-- The characters that both alphabets share. -/
def alphanumeric : List Char :=
  ['A', 'B', 'C', 'D', 'E', 'F', 'G', 'H', 'I', 'J', 'K', 'L', 'M', 'N', 'O', 'P', 'Q', 'R', 'S',
    'T', 'U', 'V', 'W', 'X', 'Y', 'Z', 'a', 'b', 'c', 'd', 'e', 'f', 'g', 'h', 'i', 'j', 'k', 'l',
    'm', 'n', 'o', 'p', 'q', 'r', 's', 't', 'u', 'v', 'w', 'x', 'y', 'z', '0', '1', '2', '3', '4',
    '5', '6', '7', '8', '9']

/-- The `basis64` array of `njs_encode_base64`. -/
def encodeBasis64 : List UInt8 := (alphanumeric ++ ['+', '/']).map byte

/-- The `basis64` array of `njs_encode_base64url`. -/
def encodeBasis64url : List UInt8 := (alphanumeric ++ ['-', '_']).map byte

/-- `njs_encode_base64_core`: the bytes written to `dst`. -/
def encodeBase64Core (basis : List UInt8) (padding : Bool) : List UInt8 → List UInt8
  | c0 :: c1 :: c2 :: s =>
    basis.getD (c0 >>> 2).toNat 0 ::
    basis.getD ((c0 &&& 0x03) <<< 4 ||| c1 >>> 4).toNat 0 ::
    basis.getD ((c1 &&& 0x0F) <<< 2 ||| c2 >>> 6).toNat 0 ::
    basis.getD (c2 &&& 0x3F).toNat 0 :: encodeBase64Core basis padding s
  | [c0, c1] =>
    [basis.getD (c0 >>> 2).toNat 0, basis.getD ((c0 &&& 0x03) <<< 4 ||| c1 >>> 4).toNat 0,
      basis.getD ((c1 &&& 0x0F) <<< 2).toNat 0] ++ if padding then [byte '='] else []
  | [c0] =>
    [basis.getD (c0 >>> 2).toNat 0, basis.getD ((c0 &&& 0x03) <<< 4).toNat 0] ++
      if padding then [byte '=', byte '='] else []
  | [] => []

/-- `njs_base64_encoded_length`. -/
def base64EncodedLength (len : ℕ) : ℕ := (len + 2) / 3 * 4

/-- `njs_base64_decoded_length`. -/
def base64DecodedLength (len : ℕ) : ℕ := (len + 3) / 4 * 3

/-- `njs_string_base64`. -/
def base64 (env : Env) (src : List UInt8) : Result StringValue :=
  if src.length = 0 then .ok emptyString
  else do
    let length := base64EncodedLength src.length
    let dst ← stringAlloc env length length
    dst.fill (encodeBase64Core encodeBasis64 true src)

/-- `njs_string_base64url`. -/
def base64url (env : Env) (src : List UInt8) : Result StringValue :=
  if src.length = 0 then .ok emptyString
  else do
    -- Calculating the padding length: 0 -> 0, 1 -> 2, 2 -> 1.
    let padding := 4 >>> (src.length % 3) &&& 0x03
    let length := base64EncodedLength src.length - padding
    let dst ← stringAlloc env length length
    dst.fill (encodeBase64Core encodeBasis64url false src)

/-- The upper half of both decoding tables, and any other run of invalid characters. -/
def invalidRun (n : ℕ) : List ℕ := List.replicate n 77

/-- The `basis64` array of `njs_string_decode_base64`. -/
def decodeBasis64 : List ℕ :=
  invalidRun 32 ++
  [77, 77, 77, 77, 77, 77, 77, 77, 77, 77, 77, 62, 77, 77, 77, 63,
   52, 53, 54, 55, 56, 57, 58, 59, 60, 61, 77, 77, 77, 77, 77, 77,
   77,  0,  1,  2,  3,  4,  5,  6,  7,  8,  9, 10, 11, 12, 13, 14,
   15, 16, 17, 18, 19, 20, 21, 22, 23, 24, 25, 77, 77, 77, 77, 77,
   77, 26, 27, 28, 29, 30, 31, 32, 33, 34, 35, 36, 37, 38, 39, 40,
   41, 42, 43, 44, 45, 46, 47, 48, 49, 50, 51, 77, 77, 77, 77, 77] ++
  invalidRun 128

/-- The `basis64` array of `njs_string_decode_base64url`. -/
def decodeBasis64url : List ℕ :=
  invalidRun 32 ++
  [77, 77, 77, 77, 77, 77, 77, 77, 77, 77, 77, 77, 77, 62, 77, 77,
   52, 53, 54, 55, 56, 57, 58, 59, 60, 61, 77, 77, 77, 77, 77, 77,
   77,  0,  1,  2,  3,  4,  5,  6,  7,  8,  9, 10, 11, 12, 13, 14,
   15, 16, 17, 18, 19, 20, 21, 22, 23, 24, 25, 77, 77, 77, 77, 63,
   77, 26, 27, 28, 29, 30, 31, 32, 33, 34, 35, 36, 37, 38, 39, 40,
   41, 42, 43, 44, 45, 46, 47, 48, 49, 50, 51, 77, 77, 77, 77, 77] ++
  invalidRun 128

/-- The first loop of `njs_decode_base64_core`: the length of the valid prefix. -/
def validLength (basis : List ℕ) : List UInt8 → ℕ
  | [] => 0
  | c :: src =>
    if c = byte '=' then 0
    else if basis.getD c.toNat 77 = 77 then 0
    else validLength basis src + 1

/-- The writing part of `njs_decode_base64_core`, on the characters that remain. -/
def decodeBase64Loop (basis : List ℕ) : List UInt8 → List UInt8
  | s0 :: s1 :: s2 :: s3 :: s =>
    let sextet := fun c : UInt8 => basis.getD c.toNat 77
    (sextet s0 <<< 2 ||| sextet s1 >>> 4).toUInt8 ::
        (sextet s1 <<< 4 ||| sextet s2 >>> 2).toUInt8 ::
      (sextet s2 <<< 6 ||| sextet s3).toUInt8 :: decodeBase64Loop basis s
  | [s0, s1, s2] =>
    let sextet := fun c : UInt8 => basis.getD c.toNat 77
    [(sextet s0 <<< 2 ||| sextet s1 >>> 4).toUInt8, (sextet s1 <<< 4 ||| sextet s2 >>> 2).toUInt8]
  | [s0, s1] =>
    let sextet := fun c : UInt8 => basis.getD c.toNat 77
    [(sextet s0 <<< 2 ||| sextet s1 >>> 4).toUInt8]
  | [_] => []
  | [] => []

/-- `njs_decode_base64_core`. -/
def decodeBase64Core (env : Env) (basis : List ℕ) (src : List UInt8) : Result StringValue :=
  if src.length = 0 then .ok emptyString
  else
    let len := validLength basis src
    -- Rounding down to integer multiple of 4.
    let len := if len % 4 = 1 then len - 1 else len
    decoded env (base64DecodedLength len) (decodeBase64Loop basis (src.take len))

/-- `njs_string_decode_base64`. -/
def decodeBase64 (env : Env) (src : List UInt8) : Result StringValue :=
  decodeBase64Core env decodeBasis64 src

/-- `njs_string_decode_base64url`. -/
def decodeBase64url (env : Env) (src : List UInt8) : Result StringValue :=
  decodeBase64Core env decodeBasis64url src

/-! ## The two methods -/

/-- The bytes of `"hex"`. -/
def hexName : List UInt8 := ['h', 'e', 'x'].map byte

/-- The bytes of `"base64"`. -/
def base64Name : List UInt8 := ['b', 'a', 's', 'e', '6', '4'].map byte

/-- The bytes of `"base64url"`. -/
def base64urlName : List UInt8 := base64Name ++ ['u', 'r', 'l'].map byte

/-- The error of both methods for a name that they do not know. -/
def unknownEncoding {α : Type} (enc : List UInt8) : Result α :=
  .error (.throw (.typeError "Unknown encoding: \"%V\"" [enc]))

/-- `njs_string_prototype_value_of`. -/
def prototypeValueOf : This → Result StringValue
  | .string v => .ok v
  | .objectString v => .ok v
  | .other typeName => .error (.throw (.typeError "unexpected value type:%s" [typeName]))

/-- `njs_string_prototype_to_string`; `arg` is `none` when no argument is passed. -/
def prototypeToString (env : Env) (this : This) (arg : Option Arg) : Result StringValue := do
  let value ← prototypeValueOf this
  match arg with
  | none => pure value
  | some .other => .error (.throw (.typeError "encoding must be a string" []))
  | some (.string encoding) =>
    if value.length ≠ 0 then .error (.throw (.typeError "argument must be a byte string" []))
    else
      let enc := encoding.bytes
      let str := value.bytes
      if enc.length = 3 ∧ enc.take 3 = hexName then hex env str
      else if enc.length = 6 ∧ enc.take 6 = base64Name then base64 env str
      else if enc.length = 9 ∧ enc.take 9 = base64urlName then base64url env str
      else unknownEncoding enc

/-- `njs_string_bytes_from_string`, the branch of `String.bytesFrom` for a string. -/
def bytesFromString (env : Env) (value : StringValue) (arg : Arg) : Result StringValue :=
  match arg with
  | .other => .error (.throw (.typeError "encoding must be a string" []))
  | .string encoding =>
    let enc := encoding.bytes
    let str := value.bytes
    if enc.length = 3 ∧ enc.take 3 = hexName then decodeHex env str
    else if enc.length = 6 ∧ enc.take 6 = base64Name then decodeBase64 env str
    -- Only six of the nine bytes are compared here.
    else if enc.length = 9 ∧ enc.take 6 = base64urlName.take 6 then decodeBase64url env str
    else unknownEncoding enc

end Njs.Str

/-!
## The encodings as regrouped bits

All three encodings write the bits of the bytes in digits of a fixed width. The
loops of the encoder and of the decoder are both shown to compute this one
description, from which the round trips follow.
-/

namespace Njs.Str

open Lib

/-- The longest prefix of a text that consists of digits, as the values of the digits. -/
def digits (digit? : UInt8 → Option ℕ) : List UInt8 → List ℕ
  | [] => []
  | c :: text =>
    match digit? c with
    | none => []
    | some d => d :: digits digit? text

/-- The bytes whose bits are written by digits of `w` bits; bits that do not fill a
byte are dropped. -/
def octets (w : ℕ) (ds : List ℕ) : List UInt8 :=
  (groups 8 (ds.flatMap (bits w))).map Nat.toUInt8

/-- The bits of a byte string. -/
def stream (bs : List UInt8) : List ℕ := (bs.map UInt8.toNat).flatMap (bits 8)

@[simp] theorem stream_nil : stream [] = [] := rfl

@[simp] theorem stream_cons (b : UInt8) (bs : List UInt8) :
    stream (b :: bs) = bits 8 b.toNat ++ stream bs := rfl

theorem stream_length (bs : List UInt8) : (stream bs).length = bs.length * 8 := by
  rw [stream, flatMap_bits_length, List.length_map]

theorem mem_stream_lt_two {bs : List UInt8} {b : ℕ} (h : b ∈ stream bs) : b < 2 := by
  obtain ⟨x, -, hx⟩ := List.mem_flatMap.mp h
  exact mem_bits_lt_two hx

/-- Digits that write all bits of some bytes, and fewer than eight zeros after them,
are read back as these bytes. -/
theorem octets_groups_stream {w n k : ℕ} (bs : List UInt8) (hk : k < 8)
    (hlen : bs.length * 8 + k = n * w) :
    octets w (groups w (stream bs ++ bits k 0)) = bs := by
  have hbits : ∀ b ∈ stream bs ++ bits k 0, b < 2 := by
    intro b hb
    rcases List.mem_append.mp hb with hb | hb
    · exact mem_stream_lt_two hb
    · exact mem_bits_lt_two hb
  have hflat := flatMap_bits_groups (w := w) (n := n) hbits (by
    rw [List.length_append, stream_length, bits_length, hlen])
  have hgroups : groups 8 (stream bs ++ bits k 0) = bs.map UInt8.toNat := by
    apply groups_flatMap_bits (by decide)
    · intro x hx
      obtain ⟨b, -, rfl⟩ := List.mem_map.mp hx
      exact b.toNat_lt
    · simpa using hk
  rw [octets, hflat, hgroups, List.map_map]
  conv_rhs => rw [← List.map_id bs]
  exact List.map_congr_left fun b _ => UInt8.ofNat_toNat

/-- Reading a text of digits gives their values, up to the first other character. -/
theorem digits_map_append {digit? : UInt8 → Option ℕ} {char : ℕ → UInt8} {w : ℕ}
    (hchar : ∀ d < 2 ^ w, digit? (char d) = some d) {ds : List ℕ} (hds : ∀ d ∈ ds, d < 2 ^ w)
    (rest : List UInt8) : digits digit? (ds.map char ++ rest) = ds ++ digits digit? rest := by
  induction ds with
  | nil => rfl
  | cons d ds ih =>
    rw [List.map_cons, List.cons_append, digits, hchar d (hds d (by simp)), List.cons_append]
    exact congrArg (d :: ·) (ih fun e h => hds e (by simp [h]))

/-! ## The encoders -/

private theorem shr_four (c : UInt8) : (c >>> 4).toNat = c.toNat / 2 ^ 4 := by
  rw [UInt8.toNat_shiftRight, Nat.shiftRight_eq_div_pow]
  rfl

private theorem low_nibble (c : UInt8) : (c &&& 0x0F).toNat = c.toNat % 2 ^ 4 := by
  rw [UInt8.toNat_and]
  exact Nat.and_two_pow_sub_one_eq_mod _ 4

private theorem low_sextet (c : UInt8) : (c &&& 0x3F).toNat = c.toNat % 2 ^ 6 := by
  rw [UInt8.toNat_and]
  exact Nat.and_two_pow_sub_one_eq_mod _ 6

private theorem first_sextet (c : UInt8) : (c >>> 2).toNat = c.toNat / 2 ^ 2 % 2 ^ 6 := by
  have hc := c.toNat_lt
  rw [UInt8.toNat_shiftRight, Nat.shiftRight_eq_div_pow, Nat.mod_eq_of_lt (b := 2 ^ 6) (by omega)]
  rfl

private theorem two_bits_shifted (c : UInt8) :
    ((c &&& 0x03) <<< 4).toNat = c.toNat % 2 ^ 2 * 2 ^ 4 := by
  have hlow : (c &&& 0x03).toNat = c.toNat % 2 ^ 2 := by
    rw [UInt8.toNat_and]
    exact Nat.and_two_pow_sub_one_eq_mod _ 2
  rw [UInt8.toNat_shiftLeft, hlow, Nat.shiftLeft_eq]
  exact Nat.mod_eq_of_lt (by change c.toNat % 4 * 16 < 256; omega)

private theorem nibble_shifted (c : UInt8) :
    ((c &&& 0x0F) <<< 2).toNat = c.toNat % 2 ^ 4 * 2 ^ 2 := by
  rw [UInt8.toNat_shiftLeft, low_nibble, Nat.shiftLeft_eq]
  exact Nat.mod_eq_of_lt (by change c.toNat % 16 * 4 < 256; omega)

private theorem second_sextet (c d : UInt8) :
    ((c &&& 0x03) <<< 4 ||| d >>> 4).toNat =
      c.toNat % 2 ^ 2 * 2 ^ 4 + d.toNat / 2 ^ 4 % 2 ^ 4 := by
  have hd := d.toNat_lt
  rw [UInt8.toNat_or, two_bits_shifted, shr_four, Nat.or_comm, or_mul_two_pow _ (by omega),
    Nat.mod_eq_of_lt (a := d.toNat / 2 ^ 4) (by omega), Nat.add_comm]

private theorem third_sextet (c d : UInt8) :
    ((c &&& 0x0F) <<< 2 ||| d >>> 6).toNat =
      c.toNat % 2 ^ 4 * 2 ^ 2 + d.toNat / 2 ^ 6 % 2 ^ 2 := by
  have hd := d.toNat_lt
  have hshr : (d >>> 6).toNat = d.toNat / 2 ^ 6 := by
    rw [UInt8.toNat_shiftRight, Nat.shiftRight_eq_div_pow]
    rfl
  rw [UInt8.toNat_or, nibble_shifted, hshr, Nat.or_comm, or_mul_two_pow _ (by omega),
    Nat.mod_eq_of_lt (a := d.toNat / 2 ^ 6) (by omega), Nat.add_comm]

private theorem second_sextet_last (c : UInt8) :
    ((c &&& 0x03) <<< 4).toNat = c.toNat % 2 ^ 2 * 2 ^ 4 + 0 % 2 ^ 4 :=
  two_bits_shifted c

private theorem third_sextet_last (c : UInt8) :
    ((c &&& 0x0F) <<< 2).toNat = c.toNat % 2 ^ 4 * 2 ^ 2 + 0 % 2 ^ 2 :=
  nibble_shifted c

private theorem groups_six (v w : ℕ) {x y : ℕ} {rest : List ℕ}
    (hvw : v + w = 6) :
    groups 6 (bits v x ++ (bits w y ++ rest)) =
      (x % 2 ^ v * 2 ^ w + y % 2 ^ w) :: groups 6 rest :=
  groups_bits_bits (by decide) hvw x y rest

private theorem groups_eight (v w : ℕ) {x y : ℕ} {rest : List ℕ}
    (hvw : v + w = 8) :
    groups 8 (bits v x ++ (bits w y ++ rest)) =
      (x % 2 ^ v * 2 ^ w + y % 2 ^ w) :: groups 8 rest :=
  groups_bits_bits (by decide) hvw x y rest

private theorem octet_four_four (x : ℕ) : bits 8 x = bits 4 (x / 2 ^ 4) ++ bits 4 x :=
  bits_add 4 4 x

private theorem octet_six_two (x : ℕ) : bits 8 x = bits 6 (x / 2 ^ 2) ++ bits 2 x :=
  bits_add 6 2 x

private theorem octet_two_six (x : ℕ) : bits 8 x = bits 2 (x / 2 ^ 6) ++ bits 6 x :=
  bits_add 2 6 x

/-- `njs_string_hex` writes the bits of the bytes in digits of four bits. -/
theorem hexLoop_eq (src : List UInt8) :
    hexLoop src = (groups 4 (stream src)).map (hexDigits.getD · 0) := by
  induction src with
  | nil => rfl
  | cons c src ih =>
    have hc := c.toNat_lt
    have hhigh : c.toNat / 2 ^ 4 % 2 ^ 4 = c.toNat / 2 ^ 4 := by omega
    rw [hexLoop, ih, stream_cons, octet_four_four, List.append_assoc, groups_bits (by decide),
      groups_bits (by decide), hhigh, shr_four, low_nibble]
    rfl

/-- The number of zero bits that fill the last sextet. -/
def zeroBits (len : ℕ) : ℕ := if len % 3 = 1 then 4 else if len % 3 = 2 then 2 else 0

/-- The number of padding characters after the last sextet. -/
def paddingLength (len : ℕ) : ℕ := if len % 3 = 1 then 2 else if len % 3 = 2 then 1 else 0

/-- `njs_encode_base64_core` writes the bits of the bytes in digits of six bits, the
last one filled with zeros, and the padding after them. -/
theorem encodeBase64Core_eq (basis : List UInt8) (padding : Bool) (src : List UInt8) :
    encodeBase64Core basis padding src =
      (groups 6 (stream src ++ bits (zeroBits src.length) 0)).map (basis.getD · 0) ++
        if padding then List.replicate (paddingLength src.length) (byte '=') else [] := by
  induction src using encodeBase64Core.induct with
  | case1 c0 c1 c2 s ih =>
    have hz : zeroBits (c0 :: c1 :: c2 :: s).length = zeroBits s.length := by
      simp [zeroBits, List.length_cons, Nat.add_assoc]
    have hp : paddingLength (c0 :: c1 :: c2 :: s).length = paddingLength s.length := by
      simp [paddingLength, List.length_cons, Nat.add_assoc]
    rw [encodeBase64Core, ih, hz, hp, first_sextet, second_sextet, third_sextet, low_sextet]
    simp only [stream_cons]
    rw [octet_six_two c0.toNat, octet_four_four c1.toNat, octet_two_six c2.toNat]
    simp only [List.append_assoc]
    rw [groups_bits (by decide), groups_six 2 4 rfl, groups_six 4 2 rfl, groups_bits (by decide)]
    rfl
  | case2 c0 c1 =>
    have hz : zeroBits [c0, c1].length = 2 := rfl
    rw [encodeBase64Core, first_sextet, second_sextet, third_sextet_last]
    simp only [stream_cons, stream_nil, List.append_nil]
    rw [octet_six_two c0.toNat, octet_four_four c1.toNat]
    simp only [List.append_assoc]
    rw [groups_bits (by decide), groups_six 2 4 rfl, hz, ← List.append_nil (bits 2 0),
      groups_six 4 2 rfl, groups_nil]
    rfl
  | case3 c0 =>
    have hz : zeroBits [c0].length = 4 := rfl
    rw [encodeBase64Core, first_sextet, second_sextet_last]
    simp only [stream_cons, stream_nil, List.append_nil]
    rw [octet_six_two c0.toNat]
    simp only [List.append_assoc]
    rw [groups_bits (by decide), hz, ← List.append_nil (bits 4 0), groups_six 2 4 rfl, groups_nil]
    rfl
  | case4 => cases padding <;> simp [encodeBase64Core, zeroBits, paddingLength, bits]

/-! ## The decoders -/

/-- A character of base64 text, with its value in one of the tables. -/
def sextet? (basis : List ℕ) (c : UInt8) : Option ℕ :=
  if c = byte '=' then none
  else if basis.getD c.toNat 77 = 77 then none else some (basis.getD c.toNat 77)

/-- The scan of the source finds the longest prefix of digits. -/
theorem validLength_eq (basis : List ℕ) (src : List UInt8) :
    validLength basis src = (digits (sextet? basis) src).length ∧
      digits (sextet? basis) src =
        (src.take (validLength basis src)).map fun c => basis.getD c.toNat 77 := by
  induction src with
  | nil => exact ⟨rfl, rfl⟩
  | cons c src ih =>
    rw [validLength, digits, sextet?]
    split_ifs with heq hinv
    · exact ⟨rfl, rfl⟩
    · exact ⟨rfl, rfl⟩
    · refine ⟨congrArg (· + 1) ih.1, ?_⟩
      rw [List.take_succ_cons, List.map_cons, ← ih.2]

private theorem shifted_or {x y : ℕ} (k : ℕ) (hy : y < 2 ^ k) : x <<< k ||| y = x * 2 ^ k + y := by
  rw [Nat.shiftLeft_eq, Nat.or_comm, or_mul_two_pow _ hy, Nat.add_comm]

private theorem toUInt8_congr {x y : ℕ} (h : x % 256 = y % 256) : x.toUInt8 = y.toUInt8 := by
  apply UInt8.toNat_inj.mp
  change (UInt8.ofNat x).toNat = (UInt8.ofNat y).toNat
  rw [UInt8.toNat_ofNat', UInt8.toNat_ofNat']
  exact h

/-- The first byte written by a group of sextets. -/
private theorem first_octet {x0 x1 : ℕ} (h1 : x1 < 64) :
    (x0 <<< 2 ||| x1 >>> 4).toUInt8 = (x0 % 2 ^ 6 * 2 ^ 2 + x1 / 2 ^ 4 % 2 ^ 2).toUInt8 := by
  rw [Nat.shiftRight_eq_div_pow, shifted_or 2 (by omega)]
  apply toUInt8_congr
  omega

/-- The second byte written by a group of sextets. -/
private theorem second_octet {x1 x2 : ℕ} (h2 : x2 < 64) :
    (x1 <<< 4 ||| x2 >>> 2).toUInt8 = (x1 % 2 ^ 4 * 2 ^ 4 + x2 / 2 ^ 2 % 2 ^ 4).toUInt8 := by
  rw [Nat.shiftRight_eq_div_pow, shifted_or 4 (by omega)]
  apply toUInt8_congr
  omega

/-- The third byte written by a group of sextets. -/
private theorem third_octet {x2 x3 : ℕ} (h3 : x3 < 64) :
    (x2 <<< 6 ||| x3).toUInt8 = (x2 % 2 ^ 2 * 2 ^ 6 + x3 % 2 ^ 6).toUInt8 := by
  rw [shifted_or 6 h3]
  apply toUInt8_congr
  omega

private theorem sextet_two_four (x : ℕ) : bits 6 x = bits 2 (x / 2 ^ 4) ++ bits 4 x :=
  bits_add 2 4 x

private theorem sextet_four_two (x : ℕ) : bits 6 x = bits 4 (x / 2 ^ 2) ++ bits 2 x :=
  bits_add 4 2 x

/-- The writing loop of the base64 decoder regroups its sextets. A single sextet that
is left over writes nothing, as its six bits fill no byte. -/
theorem decodeBase64Loop_eq {basis : List ℕ} {src : List UInt8}
    (hsrc : ∀ c ∈ src, basis.getD c.toNat 77 < 64) :
    decodeBase64Loop basis src = octets 6 (src.map fun c => basis.getD c.toNat 77) := by
  induction src using decodeBase64Loop.induct with
  | basis => exact basis
  | case1 s0 s1 s2 s3 s ih =>
    have h1 := hsrc s1 (by simp)
    have h2 := hsrc s2 (by simp)
    have h3 := hsrc s3 (by simp)
    rw [decodeBase64Loop, ih fun c hc => hsrc c (by simp [hc]), octets, octets]
    simp only [List.map_cons, List.flatMap_cons]
    rw [sextet_two_four (basis.getD s1.toNat 77), sextet_four_two (basis.getD s2.toNat 77)]
    simp only [List.append_assoc]
    rw [groups_eight 6 2 rfl, groups_eight 4 4 rfl, groups_eight 2 6 rfl, first_octet h1,
      second_octet h2, third_octet h3]
    rfl
  | case2 s0 s1 s2 =>
    have h1 := hsrc s1 (by simp)
    have h2 := hsrc s2 (by simp)
    rw [decodeBase64Loop, octets]
    simp only [List.map_cons, List.flatMap_cons]
    rw [sextet_two_four (basis.getD s1.toNat 77), sextet_four_two (basis.getD s2.toNat 77)]
    simp only [List.append_assoc]
    rw [groups_eight 6 2 rfl, groups_eight 4 4 rfl, groups_of_length_lt (by simp), first_octet h1,
      second_octet h2]
    rfl
  | case3 s0 s1 =>
    have h1 := hsrc s1 (by simp)
    rw [decodeBase64Loop, octets]
    simp only [List.map_cons, List.flatMap_cons]
    rw [sextet_two_four (basis.getD s1.toNat 77)]
    simp only [List.append_assoc]
    rw [groups_eight 6 2 rfl, groups_of_length_lt (by simp), first_octet h1]
    rfl
  | case4 s0 =>
    rw [decodeBase64Loop, octets, groups_of_length_lt (by simp), List.map_nil]
  | case5 => simp [decodeBase64Loop, octets]

theorem digits_length_le (digit? : UInt8 → Option ℕ) (text : List UInt8) :
    (digits digit? text).length ≤ text.length := by
  induction text with
  | nil => exact Nat.le_refl _
  | cons c text ih =>
    rw [digits]
    cases digit? c with
    | none => exact Nat.zero_le _
    | some d => exact Nat.succ_le_succ ih

theorem octets_length {w : ℕ} (ds : List ℕ) : (octets w ds).length = ds.length * w / 8 := by
  rw [octets, List.length_map, groups_length, flatMap_bits_length]

/-- A single sextet after whole groups of four writes no byte. -/
theorem octets_take_of_mod {ds : List ℕ} (h : ds.length % 4 = 1) :
    octets 6 (ds.take (ds.length - 1)) = octets 6 ds := by
  have hsplit : ds.take (ds.length - 1) ++ ds.drop (ds.length - 1) = ds := List.take_append_drop ..
  obtain ⟨d, hd⟩ := List.length_eq_one_iff.mp
    (show (ds.drop (ds.length - 1)).length = 1 by rw [List.length_drop]; omega)
  have hlen : ((ds.take (ds.length - 1)).flatMap (bits 6)).length = ds.length / 4 * 3 * 8 := by
    rw [flatMap_bits_length, List.length_take]
    omega
  conv_rhs => rw [← hsplit, hd]
  rw [octets, octets, List.flatMap_append, groups_append_short (by decide) hlen (by simp)]

private theorem octets_pair {x y : ℕ} {ds : List ℕ} (hx : x < 16) (hy : y < 16) :
    octets 4 (x :: y :: ds) = (x * 16 + y).toUInt8 :: octets 4 ds := by
  rw [octets, List.flatMap_cons, List.flatMap_cons, groups_eight 4 4 rfl,
    Nat.mod_eq_of_lt (a := x) (by omega), Nat.mod_eq_of_lt (a := y) (by omega)]
  rfl

/-- A property of bytes holds when it holds of the 256 numbers. -/
theorem forall_byte {p : UInt8 → Prop} (h : ∀ i : Fin 256, p (UInt8.ofNat i.val)) (c : UInt8) :
    p c := by
  have := h ⟨c.toNat, c.toNat_lt⟩
  rwa [UInt8.ofNat_toNat] at this

theorem charToHex_lt (c : UInt8) : ∀ d ∈ charToHex c, d < 16 := by
  revert c
  apply forall_byte
  decide +kernel

/-- The writing loop of the hex decoder regroups its digits, whole pairs only. -/
theorem decodeHexLoop_eq (src : List UInt8) (i : ℕ) :
    (i % 2 = 0 → decodeHexLoop src i 0 = octets 4 (digits charToHex src)) ∧
    (i % 2 = 1 → ∀ n < 16, decodeHexLoop src i n = octets 4 (n :: digits charToHex src)) := by
  induction src generalizing i with
  | nil =>
    refine ⟨fun _ => by simp [decodeHexLoop, digits, octets], fun _ n _ => ?_⟩
    rw [decodeHexLoop, digits, octets, groups_of_length_lt (by simp), List.map_nil]
  | cons b src ih =>
    obtain ⟨ih_even, ih_odd⟩ := ih (i + 1)
    rw [digits]
    cases hb : charToHex b with
    | none =>
      simp only [decodeHexLoop, hb]
      refine ⟨fun _ => by simp [octets], fun _ n _ => ?_⟩
      rw [octets, groups_of_length_lt (by simp), List.map_nil]
    | some c =>
      have hc : c < 16 := charToHex_lt b c (by simp [hb])
      simp only [decodeHexLoop, hb, Nat.and_one_is_mod]
      constructor
      · intro hi
        rw [if_neg (by omega), Nat.zero_mul, Nat.zero_add]
        exact ih_odd (by omega) c hc
      · intro hi n hn
        rw [if_pos (by omega), octets_pair hn hc]
        exact congrArg _ (ih_even (by omega))

end Njs.Str
