import Njs.Crypto.Streaming
import Njs.Str.Encodings

/-!
# Hash and Hmac objects

`crypto.createHash`, `crypto.createHmac` and the methods `update` and `digest` of both
prototypes. An object carries an untyped pointer to its structure, and a method takes the
structure to be the one of its own prototype.
-/

namespace Njs.Crypto

open Njs.Str

/-! ## Algorithms and encodings -/

/-- An element of `njs_hash_algorithms`. -/
inductive Alg
  | md5
  | sha1
  | sha256
  deriving DecidableEq

namespace Alg

/-- The `name` field. -/
def name : Alg → List UInt8
  | md5 => ['m', 'd', '5'].map byte
  | sha1 => ['s', 'h', 'a', '1'].map byte
  | sha256 => ['s', 'h', 'a', '2', '5', '6'].map byte

/-- The `size` field. -/
def size : Alg → ℕ
  | md5 => 16
  | sha1 => 20
  | sha256 => 32

/-- The type of the chaining words of the context. -/
abbrev Words : Alg → Type
  | md5 => Md5Words
  | sha1 => Sha1Words
  | sha256 => Sha2Words

/-- What the `init`, `update` and `final` fields compute with. -/
def transformation : (alg : Alg) → Transformation alg.Words
  | md5 => Crypto.md5
  | sha1 => Crypto.sha1
  | sha256 => Crypto.sha2

/-- The offset of `buffer` in the context, behind the byte counter and the words. -/
def bufferOffset : Alg → ℕ
  | md5 => 24
  | sha1 => 28
  | sha256 => 40

end Alg

/-- The elements of `njs_hash_algorithms` in order. -/
def hashAlgorithms : List Alg := [.md5, .sha1, .sha256]

/-- `njs_crypto_alg`. -/
def cryptoAlg (name : List UInt8) : Option Alg := hashAlgorithms.find? fun e => name == e.name

/-- An element of `njs_encodings`. -/
inductive Encoding
  | hex
  | base64
  | base64url
  deriving DecidableEq

namespace Encoding

/-- The `name` field. -/
def name : Encoding → List UInt8
  | hex => hexName
  | base64 => base64Name
  | base64url => base64urlName

/-- The `encode` field. -/
def encode (env : Env) : Encoding → List UInt8 → Result StringValue
  | hex => Str.hex env
  | base64 => Str.base64 env
  | base64url => Str.base64url env

end Encoding

/-- The elements of `njs_encodings` in order. -/
def encodings : List Encoding := [.hex, .base64, .base64url]

/-- `njs_crypto_encoding`. -/
def cryptoEncoding (name : List UInt8) : Option Encoding :=
  encodings.find? fun e => name == e.name

/-! ## The structures -/

/-- The union `u` of both structures, with the algorithm whose context was written
to it. -/
abbrev HashUnion : Type := (alg : Alg) × HashContext alg.Words

namespace HashUnion

/-- The `init` function of an algorithm, on a union in a fresh block, at some offset. It
sets all fields but the buffer. -/
def fresh (env : Env) (offset : ℕ) (alg : Alg) : HashUnion :=
  ⟨alg, hashInit alg.transformation {
    bytes := 0
    words := alg.transformation.zero
    buffer :=
      { bytes := (List.range blockSize).map fun i => env.garbage (offset + alg.bufferOffset + i)
        length_bytes := by simp } }⟩

/-- The `init` function of an algorithm. A function of another algorithm would take the
context for one of another layout. -/
def init (alg : Alg) (u : HashUnion) : Result HashUnion :=
  if u.1 = alg then .ok ⟨u.1, hashInit u.1.transformation u.2⟩ else .error .fault

/-- The `update` function of an algorithm. -/
def update (alg : Alg) (u : HashUnion) (data : List UInt8) : Result HashUnion :=
  if u.1 = alg then do
    let ctx ← hashUpdate u.1.transformation u.2 data
    pure ⟨u.1, ctx⟩
  else .error .fault

/-- The `final` function of an algorithm. -/
def final (alg : Alg) (u : HashUnion) : Result (List UInt8 × HashUnion) :=
  if u.1 = alg then do
    let (result, ctx) ← hashFinal u.1.transformation u.2
    pure (result, ⟨u.1, ctx⟩)
  else .error .fault

/-- Whether the eight bytes from offset 24 on are all zero. -/
def zeroAt24 : HashUnion → Bool
  | ⟨.md5, ctx⟩ => ctx.buffer.bytes.take 8 == List.replicate 8 0
  | ⟨.sha1, ctx⟩ => ctx.words.e == 0 && ctx.buffer.bytes.take 4 == List.replicate 4 0
  | ⟨.sha256, ctx⟩ => ctx.words.e == 0 && ctx.words.f == 0

end HashUnion

/-- `njs_digest_t`. A cleared `alg` is `none`. -/
structure Digest where
  /-- The context. -/
  u : HashUnion
  /-- The algorithm, until the digest is taken. -/
  alg : Option Alg

/-- `njs_hmac_t`, but for the field `key`, which is never written or read. -/
structure Hmac where
  /-- The key, combined with the outer pad. -/
  opad : List UInt8
  /-- The context. -/
  u : HashUnion
  /-- The algorithm, until the digest is taken. -/
  alg : Option Alg

/-- Which of the two prototypes a method belongs to, and which structure an object has. -/
inductive Kind
  | hash
  | hmac
  deriving DecidableEq

/-- The structure that the value of an object points to. -/
inductive DataObject
  | hash (d : Digest)
  | hmac (h : Hmac)

namespace DataObject

/-- The kind of a structure. -/
def kind : DataObject → Kind
  | hash _ => .hash
  | hmac _ => .hmac

/-- The union of a structure. -/
def u : DataObject → HashUnion
  | hash d => d.u
  | hmac h => h.u

/-- The structure after its union is written. -/
def setU : DataObject → HashUnion → DataObject
  | hash d, u => hash { d with u := u }
  | hmac h, u => hmac { h with u := u }

/-- The structure after its `alg` is cleared. -/
def clearAlg : DataObject → DataObject
  | hash d => hash { d with alg := none }
  | hmac h => hmac { h with alg := none }

end DataObject

/-- What a method reads as the `alg` field. -/
inductive AlgField
  | null
  | descriptor (alg : Alg)
  /-- Not a pointer that was stored as one. -/
  | wild
  deriving DecidableEq

/-- A field that was stored as `alg`. -/
def AlgField.ofOption : Option Alg → AlgField
  | none => null
  | some alg => descriptor alg

/-- The `alg` field of a structure, as a method of a prototype reads it. On a 64-bit
platform it is at offset 104 of `njs_digest_t`, and at offset 184 of `njs_hmac_t`. -/
def Kind.algField : Kind → DataObject → AlgField
  | .hash, .hash d => .ofOption d.alg
  | .hmac, .hmac h => .ofOption h.alg
  -- Offset 104 of `njs_hmac_t` is offset 24 of its union.
  | .hash, .hmac h => if h.u.zeroAt24 then .null else .wild
  -- `njs_digest_t` is 112 bytes long.
  | .hmac, .hash _ => .wild

/-! ## Calls -/

/-- A value, as far as the functions look at it. -/
inductive Value
  | string (v : StringValue)
  /-- An object made by `createHash` or `createHmac`, by its place among those. -/
  | object (id : ℕ)
  /-- Any other object of type `NJS_OBJECT_VALUE`. Its value is not of type `NJS_DATA`. -/
  | objectValue
  /-- A value that is neither a string nor of type `NJS_OBJECT_VALUE`. -/
  | other

/-- The objects made so far. -/
abbrev Heap : Type := List DataObject

/-- How a call ends. -/
inductive Outcome
  /-- `NJS_OK` with a value in `vm->retval`. -/
  | value (v : Value)
  /-- `njs_error`. -/
  | error (message : String)
  /-- Another exception, or undefined behaviour. -/
  | stop (s : Stop)

/-- `njs_type_error`. -/
def typeError (format : String) (args : List (List UInt8)) : Outcome :=
  .stop (.throw (.typeError format args))

/-- An argument that has to be a string. -/
def stringArg (message : String) : Option Value → Except Outcome (List UInt8)
  | some (.string v) => .ok v.bytes
  | _ => .error (typeError message [])

/-- The algorithm of a name. -/
def findAlg (name : List UInt8) : Except Outcome Alg :=
  match cryptoAlg name with
  | some alg => .ok alg
  | none => .error (typeError "not supported algorithm: \"%V\"" [name])

/-- `sizeof(njs_object_value_t)`. -/
def sizeofObjectValue : ℕ := 48

/-- `sizeof(njs_digest_t)`. -/
def sizeofDigest : ℕ := 112

/-- `sizeof(njs_hmac_t)`. -/
def sizeofHmac : ℕ := 192

/-- `njs_mp_alloc`, and `njs_memory_error` where it fails. -/
def alloc (env : Env) (size : ℕ) : Except Outcome Unit :=
  if env.mpAlloc size then .ok () else .error (.stop (.throw .memoryError))

/-- The result of a function that does not throw an `Error`. -/
def lift {α : Type} (r : Result α) : Except Outcome α := r.mapError .stop

/-- The outcome and the objects after a call that may end early, with the objects as they
were. -/
def finish (heap : Heap) (r : Except Outcome (Value × Heap)) : Outcome × Heap :=
  match r with
  | .ok (v, heap) => (.value v, heap)
  | .error o => (o, heap)

/-- `njs_crypto_create_hash`; `args` has the arguments behind `this`. -/
def createHash (env : Env) (heap : Heap) (args : List Value) : Outcome × Heap :=
  finish heap do
    let name ← stringArg "algorithm must be a string" args[0]?
    let alg ← findAlg name
    alloc env sizeofObjectValue
    alloc env sizeofDigest
    let dgst : Digest := { u := HashUnion.fresh env 0 alg, alg := some alg }
    pure (.object heap.length, heap ++ [.hash dgst])

/-- The inner pad byte. -/
def ipadByte : UInt8 := 0x36

/-- The outer pad byte. -/
def opadByte : UInt8 := 0x5c

/-- The offset of the union in `njs_hmac_t`. -/
def hmacUnionOffset : ℕ := 80

/-- The `key_buf` array: the key or its digest, with zeros up to the size of a block; and
the union after that. -/
def keyBuf (alg : Alg) (u : HashUnion) (key : List UInt8) : Result (List UInt8 × HashUnion) :=
  if key.length > blockSize then do
    let u ← u.init alg
    let u ← u.update alg key
    let (digest, u) ← u.final alg
    let digest := digest.take alg.size
    pure (digest ++ List.replicate (blockSize - alg.size) 0, u)
  else pure (key ++ List.replicate (blockSize - key.length) 0, u)

/-- `njs_crypto_create_hmac`. -/
def createHmac (env : Env) (heap : Heap) (args : List Value) : Outcome × Heap :=
  finish heap do
    let name ← stringArg "algorithm must be a string" args[0]?
    let key ← stringArg "key must be a string" args[1]?
    let alg ← findAlg name
    alloc env sizeofHmac
    let (keyBuf, u) ← lift (keyBuf alg (HashUnion.fresh env hmacUnionOffset alg) key)
    let opad := keyBuf.map (· ^^^ opadByte)
    let keyBuf := keyBuf.map (· ^^^ ipadByte)
    let u ← lift (u.init alg)
    let u ← lift (u.update alg keyBuf)
    alloc env sizeofObjectValue
    pure (.object heap.length, heap ++ [.hmac { opad := opad, u := u, alg := some alg }])

/-- The receiver of a method: an object whose value is data. -/
def thisArg (heap : Heap) (this : Value) : Except Outcome (ℕ × DataObject) :=
  match this with
  | .object id =>
    match heap[id]? with
    | some obj => .ok (id, obj)
    | none => .error (typeError "value of \"this\" is not a data type" [])
  | .objectValue => .error (typeError "value of \"this\" is not a data type" [])
  | _ => .error (typeError "\"this\" is not an object_value" [])

/-- The algorithm in the structure of the receiver. Any address but those of the
descriptors is used as one. -/
def liveAlg (kind : Kind) (obj : DataObject) : Except Outcome Alg :=
  match kind.algField obj with
  | .null => .error (.error "Digest already called")
  | .descriptor alg => .ok alg
  | .wild => .error (.stop .fault)

/-- The two `update` methods. -/
def prototypeUpdate (kind : Kind) (heap : Heap) (this : Value) (args : List Value) :
    Outcome × Heap :=
  finish heap do
    let data ← stringArg "data must be a string" args[0]?
    let (id, obj) ← thisArg heap this
    let alg ← liveAlg kind obj
    let u ← lift (obj.u.update alg data)
    pure (this, heap.set id (obj.setU u))

/-- `njs_hash_prototype_update`. -/
def hashPrototypeUpdate : Heap → Value → List Value → Outcome × Heap := prototypeUpdate .hash

/-- `njs_hmac_prototype_update`. -/
def hmacPrototypeUpdate : Heap → Value → List Value → Outcome × Heap := prototypeUpdate .hmac

/-- The digest of a structure, and the structure with the context that is left. -/
def takeDigest (alg : Alg) : DataObject → Result (List UInt8 × DataObject)
  | .hash d => do
    let (digest, u) ← d.u.final alg
    pure (digest.take alg.size, .hash { d with u := u })
  | .hmac h => do
    let (hash1, u) ← h.u.final alg
    let u ← u.init alg
    let u ← u.update alg h.opad
    let u ← u.update alg (hash1.take alg.size)
    let (digest, u) ← u.final alg
    pure (digest.take alg.size, .hmac { h with u := u })

/-- The optional encoding argument. -/
def encodingArg : Option Value → Except Outcome (Option (List UInt8))
  | none => .ok none
  | arg => some <$> stringArg "encoding must be a string" arg

/-- The encoding that the argument names. -/
def findEncoding : Option (List UInt8) → Except Outcome (Option Encoding)
  | none => .ok none
  | some name =>
    match cryptoEncoding name with
    | some enc => .ok (some enc)
    | none => .error (typeError "Unknown digest encoding: \"%V\"" [name])

/-- The string that a digest is returned as. -/
def encodeDigest (env : Env) : Option Encoding → List UInt8 → Result StringValue
  | none, str => do
    let p ← stringAlloc env str.length 0
    p.fill str
  | some enc, str => enc.encode env str

/-- The two `digest` methods. The algorithm is cleared even if the string cannot be
allocated. -/
def prototypeDigest (env : Env) (kind : Kind) (heap : Heap) (this : Value) (args : List Value) :
    Outcome × Heap :=
  let taken := do
    let encName ← encodingArg args[0]?
    let (id, obj) ← thisArg heap this
    let enc ← findEncoding encName
    let alg ← liveAlg kind obj
    let (str, obj) ← lift (takeDigest alg obj)
    pure (id, obj, encodeDigest env enc str)
  match taken with
  | .error o => (o, heap)
  | .ok (id, obj, .ok v) => (.value (.string v), heap.set id obj.clearAlg)
  | .ok (id, obj, .error s) => (.stop s, heap.set id obj.clearAlg)

/-- `njs_hash_prototype_digest`. -/
def hashPrototypeDigest (env : Env) : Heap → Value → List Value → Outcome × Heap :=
  prototypeDigest env .hash

/-- `njs_hmac_prototype_digest`. -/
def hmacPrototypeDigest (env : Env) : Heap → Value → List Value → Outcome × Heap :=
  prototypeDigest env .hmac

/-- A call of a function of the module, with the arguments behind `this`. -/
inductive Call
  | createHash (args : List Value)
  | createHmac (args : List Value)
  | update (kind : Kind) (this : Value) (args : List Value)
  | digest (kind : Kind) (this : Value) (args : List Value)

/-- The outcome of a call, and the objects after it. -/
def call (env : Env) (heap : Heap) : Call → Outcome × Heap
  | .createHash args => createHash env heap args
  | .createHmac args => createHmac env heap args
  | .update .hash this args => hashPrototypeUpdate heap this args
  | .update .hmac this args => hmacPrototypeUpdate heap this args
  | .digest .hash this args => hashPrototypeDigest env heap this args
  | .digest .hmac this args => hmacPrototypeDigest env heap this args

end Njs.Crypto
