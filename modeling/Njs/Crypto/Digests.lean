import Njs.Lib.Absorb
import Njs.Lib.Blocks
import Njs.Result

/-!
# MD5, SHA-1 and SHA-256

The three contexts differ in their chaining words, in the transformation of a block and
in the byte order of the result. Their `update` and `final` functions are the same text
but for these, and are one definition here.
-/

namespace Njs.Crypto

open Njs.Lib

/-- The size of a block, and of the `buffer` of a context. -/
def blockSize : ℕ := 64

/-- The `buffer` array of a context. -/
structure Buffer where
  /-- The bytes of the array. -/
  bytes : List UInt8
  length_bytes : bytes.length = blockSize
  deriving DecidableEq

namespace Buffer

/-- `memcpy` to the buffer, from index `i` on. A byte behind the buffer is an
out-of-range access. -/
def write (buffer : Buffer) (i : ℕ) (data : List UInt8) : Result Buffer :=
  if h : i + data.length ≤ blockSize then
    .ok {
      bytes := overwrite buffer.bytes i data
      length_bytes := by rw [length_overwrite (by rwa [buffer.length_bytes]), buffer.length_bytes] }
  else .error .fault

/-- The buffer after `njs_memzero` of all of it. -/
def zero : Buffer := ⟨List.replicate blockSize 0, List.length_replicate⟩

end Buffer

/-- A context with chaining words of type `W`. -/
structure HashContext (W : Type) where
  /-- The number of bytes taken so far. -/
  bytes : UInt64
  /-- The fields `a`, `b` and so on. -/
  words : W
  /-- The bytes that do not fill a block yet. -/
  buffer : Buffer
  deriving DecidableEq

/-- What distinguishes one digest from another. -/
structure Transformation (W : Type) where
  /-- The words that the `init` function sets. -/
  initial : W
  /-- The loop body of the `body` function, on one block. -/
  block : W → List UInt8 → W
  /-- The eight bytes of the bit length at the end of the last block. -/
  lengthBytes : UInt64 → List UInt8
  length_lengthBytes : ∀ bytes, (lengthBytes bytes).length = 8
  /-- The bytes of the words that make up the result. -/
  result : W → List UInt8
  /-- The words after `njs_explicit_memzero`. -/
  zero : W

/-- The byte of a word that `(u_char) (word >> shift)` yields. -/
def wordByte (word : UInt32) (shift : UInt32) : UInt8 := (word >>> shift).toUInt8

/-- The byte of the bit length that `(u_char) (ctx->bytes >> shift)` yields. -/
def lengthByte (bytes : UInt64) (shift : UInt64) : UInt8 := (bytes >>> shift).toUInt8

/-- The bytes of a word, the least significant first. -/
def littleEndian (word : UInt32) : List UInt8 := [0, 8, 16, 24].map (wordByte word)

/-- The bytes of a word, the most significant first. -/
def bigEndian (word : UInt32) : List UInt8 := [24, 16, 8, 0].map (wordByte word)

/-- The bytes of the bit length, the least significant first. -/
def lengthLittleEndian (bytes : UInt64) : List UInt8 :=
  [0, 8, 16, 24, 32, 40, 48, 56].map (lengthByte bytes)

/-- The bytes of the bit length, the most significant first. -/
def lengthBigEndian (bytes : UInt64) : List UInt8 :=
  [56, 48, 40, 32, 24, 16, 8, 0].map (lengthByte bytes)

section Family

variable {W : Type} (t : Transformation W)

/-- `njs_md5_init`, `njs_sha1_init` and `njs_sha2_init`. -/
def hashInit (ctx : HashContext W) : HashContext W := { ctx with words := t.initial, bytes := 0 }

/-- `njs_md5_body`, `njs_sha1_body` and `njs_sha2_body`: all of the data is whole blocks. -/
def hashBody (words : W) (data : List UInt8) : W :=
  absorb t.block blockSize (data.length / blockSize) words data

/-- The end of an `update` function, where the buffer is empty: the whole blocks of the
data are taken from where they are, and the bytes behind them are kept. -/
def updateBlocks (ctx : HashContext W) (data : List UInt8) : Result (HashContext W) := do
  let whole := data.length / blockSize * blockSize
  let words := if data.length ≥ blockSize then hashBody t ctx.words (data.take whole) else ctx.words
  let data := if data.length ≥ blockSize then data.drop whole else data
  let buffer ← ctx.buffer.write 0 data
  pure { ctx with words := words, buffer := buffer }

/-- `njs_md5_update`, `njs_sha1_update` and `njs_sha2_update`. -/
def hashUpdate (ctx : HashContext W) (data : List UInt8) : Result (HashContext W) := do
  let used := (ctx.bytes &&& 0x3f).toNat
  let ctx := { ctx with bytes := ctx.bytes + data.length.toUInt64 }
  if used ≠ 0 then
    let free := blockSize - used
    if data.length < free then
      let buffer ← ctx.buffer.write used data
      pure { ctx with buffer := buffer }
    else
      let buffer ← ctx.buffer.write used (data.take free)
      let words := hashBody t ctx.words buffer.bytes
      updateBlocks t { ctx with words := words, buffer := buffer } (data.drop free)
  else updateBlocks t ctx data

/-- `njs_md5_final`, `njs_sha1_final` and `njs_sha2_final`: the result, and the context
that is left. -/
def hashFinal (ctx : HashContext W) : Result (List UInt8 × HashContext W) := do
  let used := (ctx.bytes &&& 0x3f).toNat
  let buffer ← ctx.buffer.write used [0x80]
  let used := used + 1
  let free := blockSize - used
  let (words, buffer, used, free) ←
    if free < 8 then do
      let buffer ← buffer.write used (List.replicate free 0)
      pure (hashBody t ctx.words buffer.bytes, buffer, 0, blockSize)
    else pure (ctx.words, buffer, used, free)
  let buffer ← buffer.write used (List.replicate (free - 8) 0)
  let bytes := ctx.bytes <<< 3
  let buffer ← buffer.write 56 (t.lengthBytes bytes)
  let words := hashBody t words buffer.bytes
  pure (t.result words, { bytes := 0, words := t.zero, buffer := Buffer.zero })

end Family

/-- `ROTATE` to the left. -/
def rotateLeft (bits word : UInt32) : UInt32 := (word <<< bits) ||| (word >>> (32 - bits))

/-- `ROTATE` to the right. -/
def rotateRight (bits word : UInt32) : UInt32 := (word >>> bits) ||| (word <<< (32 - bits))

/-! ## MD5 -/

/-- The chaining words of `njs_md5_t`. -/
structure Md5Words where
  (a b c d : UInt32)
  deriving DecidableEq

/-- `SET` of MD5: a word of the block in little-endian byte order. -/
def md5Word (p : List UInt8) (n : ℕ) : UInt32 :=
  (p.getD (n * 4) 0).toUInt32 ||| (p.getD (n * 4 + 1) 0).toUInt32 <<< 8 |||
    (p.getD (n * 4 + 2) 0).toUInt32 <<< 16 ||| (p.getD (n * 4 + 3) 0).toUInt32 <<< 24

/-- `F` of MD5. -/
def md5F (x y z : UInt32) : UInt32 := z ^^^ (x &&& (y ^^^ z))

/-- `G` of MD5. -/
def md5G (x y z : UInt32) : UInt32 := y ^^^ (z &&& (x ^^^ y))

/-- `H` of MD5. -/
def md5H (x y z : UInt32) : UInt32 := x ^^^ y ^^^ z

/-- `I` of MD5. -/
def md5I (x y z : UInt32) : UInt32 := y ^^^ (x ||| ~~~z)

/-- `STEP` of MD5. The next step of the source names the words in the order `d`, `a`,
`b`, `c`, which is the order of the fields afterwards. -/
def md5Step (f : UInt32 → UInt32 → UInt32 → UInt32) (x t s : UInt32) (w : Md5Words) : Md5Words :=
  { a := w.d
    b := rotateLeft s (w.a + (f w.b w.c w.d + x + t)) + w.b
    c := w.b
    d := w.c }

/-- The arguments of the steps of round 1: the word of the block, the constant and the
rotation. -/
def md5Round1 : List (ℕ × UInt32 × UInt32) :=
  [(0, 0xd76aa478, 7), (1, 0xe8c7b756, 12), (2, 0x242070db, 17), (3, 0xc1bdceee, 22),
   (4, 0xf57c0faf, 7), (5, 0x4787c62a, 12), (6, 0xa8304613, 17), (7, 0xfd469501, 22),
   (8, 0x698098d8, 7), (9, 0x8b44f7af, 12), (10, 0xffff5bb1, 17), (11, 0x895cd7be, 22),
   (12, 0x6b901122, 7), (13, 0xfd987193, 12), (14, 0xa679438e, 17), (15, 0x49b40821, 22)]

/-- Round 2. -/
def md5Round2 : List (ℕ × UInt32 × UInt32) :=
  [(1, 0xf61e2562, 5), (6, 0xc040b340, 9), (11, 0x265e5a51, 14), (0, 0xe9b6c7aa, 20),
   (5, 0xd62f105d, 5), (10, 0x02441453, 9), (15, 0xd8a1e681, 14), (4, 0xe7d3fbc8, 20),
   (9, 0x21e1cde6, 5), (14, 0xc33707d6, 9), (3, 0xf4d50d87, 14), (8, 0x455a14ed, 20),
   (13, 0xa9e3e905, 5), (2, 0xfcefa3f8, 9), (7, 0x676f02d9, 14), (12, 0x8d2a4c8a, 20)]

/-- Round 3. -/
def md5Round3 : List (ℕ × UInt32 × UInt32) :=
  [(5, 0xfffa3942, 4), (8, 0x8771f681, 11), (11, 0x6d9d6122, 16), (14, 0xfde5380c, 23),
   (1, 0xa4beea44, 4), (4, 0x4bdecfa9, 11), (7, 0xf6bb4b60, 16), (10, 0xbebfbc70, 23),
   (13, 0x289b7ec6, 4), (0, 0xeaa127fa, 11), (3, 0xd4ef3085, 16), (6, 0x04881d05, 23),
   (9, 0xd9d4d039, 4), (12, 0xe6db99e5, 11), (15, 0x1fa27cf8, 16), (2, 0xc4ac5665, 23)]

/-- Round 4. -/
def md5Round4 : List (ℕ × UInt32 × UInt32) :=
  [(0, 0xf4292244, 6), (7, 0x432aff97, 10), (14, 0xab9423a7, 15), (5, 0xfc93a039, 21),
   (12, 0x655b59c3, 6), (3, 0x8f0ccc92, 10), (10, 0xffeff47d, 15), (1, 0x85845dd1, 21),
   (8, 0x6fa87e4f, 6), (15, 0xfe2ce6e0, 10), (6, 0xa3014314, 15), (13, 0x4e0811a1, 21),
   (4, 0xf7537e82, 6), (11, 0xbd3af235, 10), (2, 0x2ad7d2bb, 15), (9, 0xeb86d391, 21)]

/-- The steps of one round. -/
def md5Round (f : UInt32 → UInt32 → UInt32 → UInt32) (p : List UInt8)
    (steps : List (ℕ × UInt32 × UInt32)) (w : Md5Words) : Md5Words :=
  steps.foldl (fun w step => md5Step f (md5Word p step.1) step.2.1 step.2.2 w) w

/-- The loop body of `njs_md5_body`. -/
def md5Block (saved : Md5Words) (p : List UInt8) : Md5Words :=
  let w := md5Round md5F p md5Round1 saved
  let w := md5Round md5G p md5Round2 w
  let w := md5Round md5H p md5Round3 w
  let w := md5Round md5I p md5Round4 w
  { a := w.a + saved.a, b := w.b + saved.b, c := w.c + saved.c, d := w.d + saved.d }

/-- MD5. -/
def md5 : Transformation Md5Words where
  initial := { a := 0x67452301, b := 0xefcdab89, c := 0x98badcfe, d := 0x10325476 }
  block := md5Block
  lengthBytes := lengthLittleEndian
  length_lengthBytes := fun _ => rfl
  result := fun w => [w.a, w.b, w.c, w.d].flatMap littleEndian
  zero := { a := 0, b := 0, c := 0, d := 0 }

/-! ## SHA-1 -/

/-- The chaining words of `njs_sha1_t`. -/
structure Sha1Words where
  (a b c d e : UInt32)
  deriving DecidableEq

/-- `GET` of SHA-1 and SHA-256: a word of the block in big-endian byte order. -/
def shaWord (p : List UInt8) (n : ℕ) : UInt32 :=
  (p.getD (n * 4 + 3) 0).toUInt32 ||| (p.getD (n * 4 + 2) 0).toUInt32 <<< 8 |||
    (p.getD (n * 4 + 1) 0).toUInt32 <<< 16 ||| (p.getD (n * 4) 0).toUInt32 <<< 24

/-- The first sixteen elements of the `words` array. -/
def loadedWords (p : List UInt8) : List UInt32 := (List.range 16).map (shaWord p)

/-- The loop that appends `k` more elements to the `words` array, each computed from
those before it. -/
def extendWords (next : (ℕ → UInt32) → UInt32) : ℕ → List UInt32 → List UInt32
  | 0, words => words
  | k + 1, words =>
    extendWords next k (words ++ [next fun back => words.getD (words.length - back) 0])

/-- `F1` of SHA-1. -/
def sha1F1 (b c d : UInt32) : UInt32 := (b &&& c) ||| (~~~b &&& d)

/-- `F2` of SHA-1. -/
def sha1F2 (b c d : UInt32) : UInt32 := b ^^^ c ^^^ d

/-- `F3` of SHA-1. -/
def sha1F3 (b c d : UInt32) : UInt32 := (b &&& c) ||| (b &&& d) ||| (c &&& d)

/-- `STEP` of SHA-1. -/
def sha1Step (f : UInt32 → UInt32 → UInt32 → UInt32) (t : UInt32) (s : Sha1Words) (w : UInt32) :
    Sha1Words :=
  let temp := rotateLeft 5 s.a + f s.b s.c s.d + s.e + w + t
  { a := temp, b := s.a, c := rotateLeft 30 s.b, d := s.c, e := s.d }

/-- The computation of `words[i]` of SHA-1 from the elements before it. -/
def sha1Next (back : ℕ → UInt32) : UInt32 := rotateLeft 1 (back 3 ^^^ back 8 ^^^ back 14 ^^^ back
    16)

/-- The loop body of `njs_sha1_body`. -/
def sha1Block (saved : Sha1Words) (p : List UInt8) : Sha1Words :=
  let words := extendWords sha1Next 64 (loadedWords p)
  let s := (window words 0 20).foldl (sha1Step sha1F1 0x5a827999) saved
  let s := (window words 20 20).foldl (sha1Step sha1F2 0x6ed9eba1) s
  let s := (window words 40 20).foldl (sha1Step sha1F3 0x8f1bbcdc) s
  let s := (window words 60 20).foldl (sha1Step sha1F2 0xca62c1d6) s
  { a := s.a + saved.a, b := s.b + saved.b, c := s.c + saved.c, d := s.d + saved.d,
    e := s.e + saved.e }

/-- SHA-1. -/
def sha1 : Transformation Sha1Words where
  initial := { a := 0x67452301, b := 0xefcdab89, c := 0x98badcfe, d := 0x10325476,
               e := 0xc3d2e1f0 }
  block := sha1Block
  lengthBytes := lengthBigEndian
  length_lengthBytes := fun _ => rfl
  result := fun w => [w.a, w.b, w.c, w.d, w.e].flatMap bigEndian
  zero := { a := 0, b := 0, c := 0, d := 0, e := 0 }

/-! ## SHA-256 -/

/-- The chaining words of `njs_sha2_t`. -/
structure Sha2Words where
  (a b c d e f g h : UInt32)
  deriving DecidableEq

/-- `S0` of SHA-256. -/
def sha2S0 (a : UInt32) : UInt32 := rotateRight 2 a ^^^ rotateRight 13 a ^^^ rotateRight 22 a

/-- `S1` of SHA-256. -/
def sha2S1 (e : UInt32) : UInt32 := rotateRight 6 e ^^^ rotateRight 11 e ^^^ rotateRight 25 e

/-- `CH` of SHA-256. -/
def sha2Ch (e f g : UInt32) : UInt32 := (e &&& f) ^^^ (~~~e &&& g)

/-- `MAJ` of SHA-256. -/
def sha2Maj (a b c : UInt32) : UInt32 := (a &&& b) ^^^ (a &&& c) ^^^ (b &&& c)

/-- The computation of `words[i]` of SHA-256 from the elements before it. -/
def sha2Next (back : ℕ → UInt32) : UInt32 :=
  let s0 := rotateRight 7 (back 15) ^^^ rotateRight 18 (back 15) ^^^ (back 15 >>> 3)
  let s1 := rotateRight 17 (back 2) ^^^ rotateRight 19 (back 2) ^^^ (back 2 >>> 10)
  back 16 + s0 + back 7 + s1

/-- The constants of the steps of SHA-256. -/
def sha2Constants : List UInt32 :=
  [0x428a2f98, 0x71374491, 0xb5c0fbcf, 0xe9b5dba5, 0x3956c25b, 0x59f111f1, 0x923f82a4, 0xab1c5ed5,
   0xd807aa98, 0x12835b01, 0x243185be, 0x550c7dc3, 0x72be5d74, 0x80deb1fe, 0x9bdc06a7, 0xc19bf174,
   0xe49b69c1, 0xefbe4786, 0x0fc19dc6, 0x240ca1cc, 0x2de92c6f, 0x4a7484aa, 0x5cb0a9dc, 0x76f988da,
   0x983e5152, 0xa831c66d, 0xb00327c8, 0xbf597fc7, 0xc6e00bf3, 0xd5a79147, 0x06ca6351, 0x14292967,
   0x27b70a85, 0x2e1b2138, 0x4d2c6dfc, 0x53380d13, 0x650a7354, 0x766a0abb, 0x81c2c92e, 0x92722c85,
   0xa2bfe8a1, 0xa81a664b, 0xc24b8b70, 0xc76c51a3, 0xd192e819, 0xd6990624, 0xf40e3585, 0x106aa070,
   0x19a4c116, 0x1e376c08, 0x2748774c, 0x34b0bcb5, 0x391c0cb3, 0x4ed8aa4a, 0x5b9cca4f, 0x682e6ff3,
   0x748f82ee, 0x78a5636f, 0x84c87814, 0x8cc70208, 0x90befffa, 0xa4506ceb, 0xbef9a3f7, 0xc67178f2]

/-- `STEP` of SHA-256, with the element of the `words` array and the constant. -/
def sha2Step (s : Sha2Words) (wk : UInt32 × UInt32) : Sha2Words :=
  let temp1 := s.h + sha2S1 s.e + sha2Ch s.e s.f s.g + wk.2 + wk.1
  let temp2 := sha2S0 s.a + sha2Maj s.a s.b s.c
  { a := temp1 + temp2, b := s.a, c := s.b, d := s.c, e := s.d + temp1, f := s.e, g := s.f,
    h := s.g }

/-- The loop body of `njs_sha2_body`. -/
def sha2Block (saved : Sha2Words) (p : List UInt8) : Sha2Words :=
  let words := extendWords sha2Next 48 (loadedWords p)
  let s := (words.zip sha2Constants).foldl sha2Step saved
  { a := s.a + saved.a, b := s.b + saved.b, c := s.c + saved.c, d := s.d + saved.d,
    e := s.e + saved.e, f := s.f + saved.f, g := s.g + saved.g, h := s.h + saved.h }

/-- SHA-256. -/
def sha2 : Transformation Sha2Words where
  initial := { a := 0x6a09e667, b := 0xbb67ae85, c := 0x3c6ef372, d := 0xa54ff53a,
               e := 0x510e527f, f := 0x9b05688c, g := 0x1f83d9ab, h := 0x5be0cd19 }
  block := sha2Block
  lengthBytes := lengthBigEndian
  length_lengthBytes := fun _ => rfl
  result := fun w => [w.a, w.b, w.c, w.d, w.e, w.f, w.g, w.h].flatMap bigEndian
  zero := { a := 0, b := 0, c := 0, d := 0, e := 0, f := 0, g := 0, h := 0 }

end Njs.Crypto
