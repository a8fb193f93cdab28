import Njs.Str.Encodings

/-!
# `encodeURI`, `decodeURI` and the component variants

The encoder writes every byte of a class as an escape of three characters. The
decoder makes two passes: the first one checks the escapes and computes the size of
the result, the second one writes it and patches its length.
-/

namespace Njs.Str

/-- The bit test of the tables of byte classes, eight words of 32 bits. -/
def isMarked (table : List UInt32) (byte : UInt8) : Bool :=
  table.getD (byte >>> 5).toNat 0 &&& (1 : UInt32) <<< (byte &&& 0x1f).toUInt32 ≠ 0

/-- The `escape` table of `njs_string_encode_uri`. -/
def uriEscape : List UInt32 :=
  [0xffffffff, 0x50000025, 0x78000000, 0xb8000001, 0xffffffff, 0xffffffff, 0xffffffff, 0xffffffff]

/-- The `escape` table of `njs_string_encode_uri_component`. -/
def uriComponentEscape : List UInt32 :=
  [0xffffffff, 0xfc00987d, 0x78000001, 0xb8000001, 0xffffffff, 0xffffffff, 0xffffffff, 0xffffffff]

/-- The `reserve` table of `njs_string_decode_uri`. -/
def uriReserve : List UInt32 :=
  [0x00000000, 0xac009858, 0x00000001, 0x00000000, 0x00000000, 0x00000000, 0x00000000, 0x00000000]

/-- The `reserve` table of `njs_string_decode_uri_component`. -/
def uriComponentReserve : List UInt32 :=
  [0x00000000, 0x00000000, 0x00000000, 0x00000000, 0x00000000, 0x00000000, 0x00000000, 0x00000000]

/-! ## Encoding -/

/-- The `hex` array of `njs_string_encode`. -/
def upperHexDigits : List UInt8 :=
  ['0', '1', '2', '3', '4', '5', '6', '7', '8', '9', 'A', 'B', 'C', 'D', 'E', 'F'].map byte

/-- The first loop of `njs_string_encode`: the number of bytes that escapes add. -/
def escapesSize (escape : List UInt32) : List UInt8 → ℕ → ℕ
  | [], n => n
  | byte :: src, n => escapesSize escape src (if isMarked escape byte then n + 2 else n)

/-- The second loop of `njs_string_encode`. -/
def encodeLoop (escape : List UInt32) : List UInt8 → List UInt8
  | [] => []
  | b :: src =>
    if isMarked escape b then
      byte '%' :: upperHexDigits.getD (b >>> 4).toNat 0 ::
        upperHexDigits.getD (b &&& 0xf).toNat 0 :: encodeLoop escape src
    else b :: encodeLoop escape src

/-- `njs_string_encode`. -/
def encode (env : Env) (value : StringValue) (escape : List UInt32) : Result StringValue :=
  let string := value.bytes
  let n := escapesSize escape string 0
  if n = 0 then .ok value
  else do
    let size := string.length + n
    let dst ← stringAlloc env size size
    dst.fill (encodeLoop escape string)

/-- `njs_string_encode_uri` for a string argument. -/
def encodeUri (env : Env) (value : StringValue) : Result StringValue := encode env value uriEscape

/-- `njs_string_encode_uri_component` for a string argument. -/
def encodeUriComponent (env : Env) (value : StringValue) : Result StringValue :=
  encode env value uriComponentEscape

/-! ## Decoding -/

/-- A run of characters that are not digits in the `hex` array of `njs_string_decode`. -/
def notHex (n : ℕ) : List ℤ := List.replicate n (-1)

/-- The `hex` array of `njs_string_decode`. -/
def decodeHexTable : List ℤ :=
  notHex 48 ++ [0, 1, 2, 3, 4, 5, 6, 7, 8, 9] ++ notHex 7 ++ [10, 11, 12, 13, 14, 15] ++
    notHex 26 ++ [10, 11, 12, 13, 14, 15] ++ notHex 153

/-- The value of a byte in that array. -/
def uriHex (c : UInt8) : ℤ := decodeHexTable.getD c.toNat (-1)

/-- The byte `(d0 << 4) + d1`. -/
def uriByte (d0 d1 : ℤ) : UInt8 := UInt8.ofInt (d0 * 16 + d1)

/-- The first loop of `njs_string_decode`: the number of bytes that decoding removes, or
`none` for a jump to `uri_error`. -/
def decodeScan (reserve : List UInt32) : List UInt8 → ℕ → Option ℕ
  | [], n => some n
  | b :: src, n =>
    if b = byte '%' then
      match src with
      | c0 :: c1 :: src =>
        if uriHex c0 < 0 then none
        else if uriHex c1 < 0 then none
        else if isMarked reserve (uriByte (uriHex c0) (uriHex c1)) then decodeScan reserve src n
        else decodeScan reserve src (n + 2)
      | _ => none
    else decodeScan reserve src n

/-- The second loop of `njs_string_decode`: the bytes written and the flag `utf8`, or
`none` for a read beyond the end of the string. -/
def decodeLoop (reserve : List UInt32) : List UInt8 → Bool → Option (List UInt8 × Bool)
  | [], utf8 => some ([], utf8)
  | b :: src, utf8 =>
    if b = byte '%' then
      match src with
      | c0 :: c1 :: src =>
        let b := uriByte (uriHex c0) (uriHex c1)
        let utf8 := utf8 || b ≥ 0x80
        let dst := if isMarked reserve b then [byte '%', c0, c1] else [b]
        (decodeLoop reserve src utf8).map fun (out, utf8) => (dst ++ out, utf8)
      | _ => none
    else (decodeLoop reserve src utf8).map fun (out, utf8) => (b :: out, utf8)

/-- The assignment to the length field, of four bits in a short string. -/
def StringValue.setLength (length : ℕ) : StringValue → StringValue
  | short s => .short { s with length := Fin.ofNat 16 length }
  | long s => .long { s with length := length }

/-- `njs_string_decode`. -/
def decode (env : Env) (value : StringValue) (reserve : List UInt32) : Result StringValue :=
  let string := value.bytes
  match decodeScan reserve string 0 with
  | none => .error (.throw .uriError)
  | some n =>
    if n = 0 then .ok value
    else do
      let n := string.length - n
      let start ← stringAlloc env n n
      match decodeLoop reserve string false with
      | none => .error .fault
      | some (out, utf8) =>
        let retval ← start.fill out
        if utf8 then
          match Utf8.length retval.bytes with
          | none => .error .fault
          | some length => .ok (retval.setLength length.toNat)
        else .ok retval

/-- `njs_string_decode_uri` for a string argument. -/
def decodeUri (env : Env) (value : StringValue) : Result StringValue := decode env value uriReserve

/-- `njs_string_decode_uri_component` for a string argument. -/
def decodeUriComponent (env : Env) (value : StringValue) : Result StringValue :=
  decode env value uriComponentReserve

end Njs.Str
