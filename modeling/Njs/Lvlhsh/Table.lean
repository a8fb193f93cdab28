import Mathlib.Logic.Function.Basic
import Njs.Lib.Allocation
import Njs.Lib.Command

/-!
# The level hash

`njs_lvlhsh.c`: a tree of levels and chains of buckets. Every pointer to a level or
to a bucket carries a tag and a counter in its low bits. The blocks that pointers
lead to are part of the tree here, together with the words that point to them.
-/

namespace Njs.Lvlhsh

open Lib

/-! ## Layouts -/

/-- The predefined layouts; on a 64-bit platform they differ in the shifts only. -/
inductive Layout
  /-- `NJS_LVLHSH_DEFAULT`. -/
  | default
  /-- `NJS_LVLHSH_LARGE_SLAB`. -/
  | largeSlab
  /-- `NJS_LVLHSH_LARGE_MEMALIGN`, with the platform's `NJS_LVLHSH_MEMALIGN_SHIFT`. -/
  | largeMemalign (memalignShift : ℕ)
  deriving DecidableEq

/-- The `shift` array of a layout. -/
def Layout.shift : Layout → List ℕ
  | default => [4, 4, 4, 4, 4, 4, 4, 0]
  | largeSlab => [10, 4, 4, 4, 4, 4, 4, 0]
  | largeMemalign memalignShift =>
    [if memalignShift < 10 then memalignShift else 10, 4, 4, 4, 4, 0, 0, 0]

/-- `NJS_LVLHSH_DEFAULT_BUCKET_SIZE`. -/
def bucketSize : ℕ := 128

/-- `NJS_LVLHSH_BUCKET_END` in entries of three words: the entries of a bucket. -/
def bucketEnd : ℕ := (bucketSize - 8) / (3 * 4)

/-- `bucket_mask`. -/
def bucketMask : UInt64 := 127

/-! ## Tagged pointers -/

/-- `((uintptr_t) 1 << shift) - 1`. -/
def levelMask (shift : ℕ) : UInt64 := ((1 : UInt64) <<< shift.toUInt64) - 1

/-- `njs_lvlhsh_is_bucket`. -/
def isBucket (p : UInt64) : Bool := p &&& 1 ≠ 0

/-- `njs_lvlhsh_count_inc`. -/
def countInc (n : UInt64) : UInt64 := n + 2

/-- `njs_lvlhsh_count_dec`. -/
def countDec (n : UInt64) : UInt64 := n - 2

/-- `njs_lvlhsh_level`. -/
def levelAddress (lvl mask : UInt64) : UInt64 := lvl &&& (~~~mask <<< 2)

/-- `njs_lvlhsh_level_entries`. -/
def levelEntries (lvl mask : UInt64) : UInt64 := lvl &&& (mask <<< 1)

/-- `njs_lvlhsh_store_bucket`. -/
def storeBucket (bkt : UInt64) : UInt64 := bkt ||| 2 ||| 1

/-- `njs_lvlhsh_bucket`. -/
def bucketAddress (bkt : UInt64) : UInt64 := bkt &&& ~~~bucketMask

/-- `njs_lvlhsh_bucket_entries`. -/
def bucketEntries (bkt : UInt64) : ℕ := ((bkt &&& bucketMask) >>> 1).toNat

/-! ## The tree -/

variable {κ α : Type}

/-- An entry of a bucket; a free one has the value pointer `NULL`. -/
structure Cell (α : Type) where
  value : Option α
  key : UInt32
  deriving DecidableEq

/-- A bucket with the tagged word that points to it. -/
structure Bucket (α : Type) where
  word : UInt64
  cells : List (Cell α)
  deriving DecidableEq

/-- What a slot of a level, or the table itself, points to. -/
inductive Slot (α : Type)
  | null
  /-- A chain of buckets; the word of each later bucket is the `next` pointer of the
  bucket before it. -/
  | bucket (chain : List (Bucket α))
  /-- A level with its tagged word. -/
  | level (word : UInt64) (slots : ℕ → Slot α)

namespace Slot

/-- The pointer itself. -/
def word : Slot α → UInt64
  | null => 0
  | bucket chain => (chain.map Bucket.word).headD 0
  | level word _ => word

/-- A chain without buckets is a `NULL` pointer. -/
def ofChain : List (Bucket α) → Slot α
  | [] => null
  | b :: chain => bucket (b :: chain)

/-- Whether the pointer is `NULL`. -/
def isNull : Slot α → Bool
  | null => true
  | _ => false

end Slot

/-- The fields of `njs_lvlhsh_query_t`. The key of the queries that move entries to a
new level is not initialised, which is `none` here. -/
structure Query (κ α : Type) where
  keyHash : UInt32
  key : Option κ
  replace : Bool
  value : Option α

/-- The return codes. -/
inductive Status
  | ok
  | declined
  | error
  deriving DecidableEq

/-- An allocated block. -/
structure Block where
  address : UInt64
  size : ℕ
  deriving DecidableEq

/-- The allocator of a table: it answers each request as it likes, with a block that is
aligned to its size and not in use, or not at all. The contents of the block are stale. -/
structure Allocator (α : Type) where
  answer : History Block → ℕ → Option UInt64
  stale : History Block → ℕ → Cell α
  aligned : ∀ {h size p}, answer h size = some p → size ∣ p.toNat
  fresh : ∀ {h size p}, answer h size = some p → ∀ b ∈ h.live, b.address ≠ p

/-- Commands on the memory of a table. -/
abbrev Memory (β : Type) : Type := Command (History Block) β

/-- `proto->alloc`. -/
def alloc (A : Allocator α) (size : ℕ) : Memory (Option (UInt64 × (ℕ → Cell α))) := fun h =>
  match A.answer h size with
  | none => some (none, .refused :: h)
  | some p => some (some (p, A.stale h), .granted ⟨p, size⟩ :: h)

/-- `proto->free`. -/
def free (p : UInt64) (size : ℕ) : Memory Unit := fun h => some ((), .released ⟨p, size⟩ :: h)

section Operations

variable [DecidableEq κ] (keyOf : α → κ)

/-- `proto->test`: it compares the key of the query with the key of a value. A query
whose key is not initialised must not get here. -/
def test (q : Query κ α) (value : α) : Option Bool := q.key.map (· == keyOf value)

/-- The two tests of an entry: its hash first, then its key. -/
def testEntry (q : Query κ α) (key : UInt32) (value : α) : Option Bool :=
  if key = q.keyHash then test keyOf q value else some false

/-! ## Finding -/

/-- The loop over the entries of one bucket, which `njs_lvlhsh_bucket_find` and
`njs_lvlhsh_bucket_delete` share: the index and the value of the entry. -/
def cellFind (q : Query κ α) : List (Cell α) → ℕ → ℕ → Option (Option (ℕ × α))
  | [], _, _ => none
  | e :: cells, n, i =>
    match e.value with
    | none => if n = 0 then some none else cellFind q cells n (i + 1)
    | some value => do
      if n = 0 then none
      else
        if ← testEntry keyOf q e.key value then some (some (i, value))
        else if n = 1 then some none
        else cellFind q cells (n - 1) (i + 1)

/-- `njs_lvlhsh_bucket_find`. -/
def bucketFind (q : Query κ α) : List (Bucket α) → Option (Option α)
  | [] => some none
  | b :: chain => do
    match ← cellFind keyOf q b.cells (bucketEntries b.word) 0 with
    | some (_, value) => some (some value)
    | none => bucketFind q chain

/-- The test of a pointer that `njs_lvlhsh_find` and `njs_lvlhsh_level_find` share; the
last case is `njs_lvlhsh_level_find`. -/
def slotFind (q : Query κ α) : Slot α → List ℕ → ℕ → Option (Option α)
  | .null, _, _ => some none
  | .bucket chain, _, _ =>
    if isBucket (Slot.bucket chain).word then bucketFind keyOf q chain else none
  | .level word slots, shifts, key =>
    if isBucket word then none
    else
      let shift := shifts.headD 0
      slotFind q (slots (key &&& (levelMask shift).toNat)) shifts.tail (key >>> shift)

/-- `njs_lvlhsh_find`. -/
def find (shifts : List ℕ) (lh : Slot α) (q : Query κ α) : Option (Status × Option α) := do
  match ← slotFind keyOf q lh shifts q.keyHash.toNat with
  | some value => some (.ok, some value)
  | none => some (.declined, q.value)

/-! ## Inserting -/

/-- What an insertion returns: its code, the field `lhq->value` and the new pointer. -/
structure Inserted (α : Type) where
  status : Status
  value : Option α
  slot : Slot α

/-- `njs_lvlhsh_new_bucket`. -/
def newBucket (A : Allocator α) (q : Query κ α) : Memory (Option (Bucket α)) := do
  match ← alloc A bucketSize with
  | none => pure none
  | some (p, stale) =>
    pure (some {
      word := storeBucket p
      cells := ⟨q.value, q.keyHash⟩ :: (List.range (bucketEnd - 1)).map fun i => stale (i + 1) })

/-- What the search of `njs_lvlhsh_bucket_insert` finds in a chain: an entry with the
key, or else the first vacant position. Positions are a bucket and an entry of it. -/
inductive Search (α : Type)
  | found (b i : ℕ) (value : α)
  | vacant (b i : ℕ)
  | full
  deriving DecidableEq

/-- The inner loop of the search: the entry with the key, or the index where the loop
stops and the first vacant position. -/
def cellSearch (q : Query κ α) (b : ℕ) :
    List (Cell α) → ℕ → ℕ → Option (ℕ × ℕ) → Option ((ℕ × α) ⊕ (ℕ × Option (ℕ × ℕ)))
  | [], _, _, _ => none
  | e :: cells, n, i, vacant =>
    match e.value with
    | none =>
      let vacant := vacant.or (some (b, i))
      if n = 0 then some (.inr (i + 1, vacant)) else cellSearch q b cells n (i + 1) vacant
    | some value => do
      if n = 0 then none
      else
        if ← testEntry keyOf q e.key value then some (.inl (i, value))
        else if n = 1 then some (.inr (i + 1, vacant))
        else cellSearch q b cells (n - 1) (i + 1) vacant

/-- The outer loop of the search. -/
def chainSearch (q : Query κ α) : List (Bucket α) → ℕ → Option (ℕ × ℕ) → Option (Search α)
  | [], _, some (b, i) => some (.vacant b i)
  | [], _, none => some .full
  | bkt :: chain, b, vacant => do
    match ← cellSearch keyOf q b bkt.cells (bucketEntries bkt.word) 0 vacant with
    | .inl (i, value) => some (.found b i value)
    | .inr (e, vacant) =>
      let vacant := if e < bucketEnd then vacant.or (some (b, e)) else vacant
      chainSearch q chain (b + 1) vacant

/-- Write an entry of one bucket of a chain. -/
def setCell (chain : List (Bucket α)) (b i : ℕ) (e : Cell α) : List (Bucket α) :=
  chain.modify b fun bkt => { bkt with cells := bkt.cells.set i e }

/-- Count one more entry of one bucket of a chain. -/
def incChain (chain : List (Bucket α)) (b : ℕ) : List (Bucket α) :=
  chain.modify b fun bkt => { bkt with word := countInc bkt.word }

/-- `njs_lvlhsh_bucket_insert`, with the functions that convert the last bucket to a
level and insert into that level, and the shifts from this level on. -/
def bucketInsert (A : Allocator α) (convert : Bucket α → Memory (Option (UInt64 × (ℕ → Slot α))))
    (levelInsert : Query κ α → UInt64 → (ℕ → Slot α) → ℕ → Memory (Inserted α))
    (shifts : List ℕ) (q : Query κ α) (chain : List (Bucket α)) (key : ℕ) :
    Memory (Inserted α) := do
  match ← lift (chainSearch keyOf q chain 0 none) with
  | .found b i value =>
    if q.replace then
      pure ⟨.ok, some value, .bucket (setCell chain b i ⟨q.value, q.keyHash⟩)⟩
    else pure ⟨.declined, some value, .bucket chain⟩
  | .vacant b i =>
    pure ⟨.ok, q.value, .bucket (incChain (setCell chain b i ⟨q.value, q.keyHash⟩) b)⟩
  | .full =>
    -- All buckets are full.
    if shifts.headD 0 ≠ 0 then
      match chain.getLast? with
      | none => fault
      | some bucket =>
        match ← convert bucket with
        | some (word, slots) => levelInsert q word slots key
        | none => pure ⟨.error, q.value, .bucket chain⟩
    else
      -- The last allowed level, only buckets may be allocated here.
      match ← newBucket A q with
      | some bkt => pure ⟨.ok, q.value, .bucket (chain ++ [bkt])⟩
      | none => pure ⟨.error, q.value, .bucket chain⟩

/-- The loop of `njs_lvlhsh_bucket_convertion_insert`: the first bucket that is not full
gets the entry behind its others. -/
def chainAppend (q : Query κ α) : List (Bucket α) → Option (List (Bucket α))
  | [] => none
  | bkt :: chain =>
    let n := bucketEntries bkt.word
    if n < bucketEnd then
      some (⟨countInc bkt.word, bkt.cells.set n ⟨q.value, q.keyHash⟩⟩ :: chain)
    else (chainAppend q chain).map (bkt :: ·)

/-- `njs_lvlhsh_bucket_convertion_insert`. -/
def bucketConvertionInsert (A : Allocator α)
    (convert : Bucket α → Memory (Option (UInt64 × (ℕ → Slot α))))
    (levelInsert : Query κ α → UInt64 → (ℕ → Slot α) → ℕ → Memory (Inserted α))
    (shifts : List ℕ) (q : Query κ α) (chain : List (Bucket α)) (key : ℕ) :
    Memory (Status × Slot α) := do
  match chainAppend q chain with
  | some chain => pure (.ok, .bucket chain)
  | none =>
    -- All buckets are full.
    if shifts.headD 0 ≠ 0 then
      match chain.getLast? with
      | none => fault
      | some bucket =>
        match ← convert bucket with
        | some (word, slots) => do
          let r ← levelInsert q word slots key
          pure (r.status, r.slot)
        | none => pure (.error, .bucket chain)
    else
      match ← newBucket A q with
      | some bkt => pure (.ok, .bucket (chain ++ [bkt]))
      | none => pure (.error, .bucket chain)

/-- `njs_lvlhsh_level_convertion_insert`; `insert` is
`njs_lvlhsh_bucket_convertion_insert`. -/
def levelConvertionInsert (A : Allocator α) (shift : ℕ)
    (insert : Query κ α → List (Bucket α) → ℕ → Memory (Status × Slot α))
    (q : Query κ α) (word : UInt64) (slots : ℕ → Slot α) (key : ℕ) :
    Memory (Status × UInt64 × (ℕ → Slot α)) := do
  let i := key &&& (levelMask shift).toNat
  match slots i with
  | .null =>
    match ← newBucket A q with
    | some bkt => pure (.ok, countInc word, Function.update slots i (.bucket [bkt]))
    | none => pure (.error, word, slots)
  | .bucket chain => do
    let (status, slot) ← insert q chain (key >>> shift)
    pure (status, word, Function.update slots i slot)
  -- Only buckets can be here.
  | .level _ _ => fault

/-- The first loop of `njs_lvlhsh_free_level`. -/
def freeBuckets (slots : ℕ → Slot α) : List ℕ → Memory Unit
  | [] => pure ()
  | i :: is => do
    if (slots i).isNull then pure ()
    else free (bucketAddress (slots i).word) bucketSize
    freeBuckets slots is

/-- `njs_lvlhsh_free_level`. -/
def freeLevel (level : UInt64) (slots : ℕ → Slot α) (size : ℕ) : Memory Unit := do
  freeBuckets slots (List.range size)
  free level (size * 8)

/-- The loop of `njs_lvlhsh_convert_bucket_to_level` over the entries of the bucket. -/
def convertLoop (insert : Query κ α → UInt64 → (ℕ → Slot α) → ℕ →
    Memory (Status × UInt64 × (ℕ → Slot α))) (shift : ℕ) :
    List (Cell α) → UInt64 → (ℕ → Slot α) → Memory (Status × UInt64 × (ℕ → Slot α))
  | [], word, slots => pure (.ok, word, slots)
  | e :: cells, word, slots => do
    let q : Query κ α := ⟨e.key, none, false, e.value⟩
    let (status, word, slots) ← insert q word slots (e.key.toNat >>> shift)
    if status = .ok then convertLoop insert shift cells word slots
    else pure (status, word, slots)

mutual

/-- `njs_lvlhsh_convert_bucket_to_level`, where `shifts` is the array from index `nlvl`
on and `shift` is the sum of the shifts before. -/
def convertBucketToLevel (A : Allocator α) :
    List ℕ → ℕ → Bucket α → Memory (Option (UInt64 × (ℕ → Slot α)))
  | [], _, _ => fault
  | levelShift :: shifts, shift, bucket => do
    let size := 1 <<< levelShift
    match ← alloc A (size * 8) with
    | none => pure none
    | some (level, _) =>
      let insert := levelConvertionInsert A levelShift
        (bucketConvertionInsert A (convertBucketToLevel A shifts (shift + levelShift))
          (levelInsert A shifts (shift + levelShift)) shifts)
      let (status, word, slots) ←
        convertLoop insert shift (bucket.cells.take bucketEnd) level fun _ => .null
      if status = .ok then do
        free (bucketAddress bucket.word) bucketSize
        pure (some (word, slots))
      else do
        freeLevel level slots size
        pure none

/-- `njs_lvlhsh_level_insert`, where `shifts` is the array from index `nlvl` on and
`shift` is the sum of the shifts before. -/
def levelInsert (A : Allocator α) :
    List ℕ → ℕ → Query κ α → UInt64 → (ℕ → Slot α) → ℕ → Memory (Inserted α)
  | [], _, _, _, _, _ => fault
  | levelShift :: shifts, shift, q, word, slots, key => do
    let i := key &&& (levelMask levelShift).toNat
    match slots i with
    | .null =>
      match ← newBucket A q with
      | some bkt =>
        pure ⟨.ok, q.value, .level (countInc word) (Function.update slots i (.bucket [bkt]))⟩
      | none => pure ⟨.error, q.value, .level word slots⟩
    | .bucket chain => do
      if isBucket (Slot.bucket chain).word then
        let r ← bucketInsert keyOf A (convertBucketToLevel A shifts (shift + levelShift))
          (levelInsert A shifts (shift + levelShift)) shifts q chain (key >>> levelShift)
        pure { r with slot := .level word (Function.update slots i r.slot) }
      else fault
    | .level word' slots' => do
      if isBucket word' then fault
      else
        let r ← levelInsert A shifts (shift + levelShift) q word' slots' (key >>> levelShift)
        pure { r with slot := .level word (Function.update slots i r.slot) }

end

/-- `njs_lvlhsh_insert`. -/
def insert (A : Allocator α) (shifts : List ℕ) (lh : Slot α) (q : Query κ α) :
    Memory (Inserted α) := do
  match lh with
  | .null =>
    match ← newBucket A q with
    | some bkt => pure ⟨.ok, q.value, .bucket [bkt]⟩
    | none => pure ⟨.error, q.value, .null⟩
  | .bucket chain =>
    if isBucket (Slot.bucket chain).word then
      bucketInsert keyOf A (convertBucketToLevel keyOf A shifts 0) (levelInsert keyOf A shifts 0)
        shifts q chain q.keyHash.toNat
    else fault
  | .level word slots =>
    if isBucket word then fault else levelInsert keyOf A shifts 0 q word slots q.keyHash.toNat

/-! ## Deleting -/

/-- `njs_lvlhsh_bucket_delete`. -/
def bucketDelete (q : Query κ α) : List (Bucket α) → Memory (Status × Option α × List (Bucket α))
  | [] => pure (.declined, q.value, [])
  | b :: chain => do
    match ← lift (cellFind keyOf q b.cells (bucketEntries b.word) 0) with
    | some (i, value) =>
      if bucketEntries b.word = 1 then do
        free (bucketAddress b.word) bucketSize
        pure (.ok, some value, chain)
      else
        let e : Cell α := ⟨none, (b.cells.map Cell.key).getD i 0⟩
        pure (.ok, some value, ⟨countDec b.word, b.cells.set i e⟩ :: chain)
    | none => do
      let (status, value, chain) ← bucketDelete q chain
      pure (status, value, b :: chain)

/-- The test of a pointer that `njs_lvlhsh_delete` and `njs_lvlhsh_level_delete` share;
the last case is `njs_lvlhsh_level_delete`. -/
def slotDelete (q : Query κ α) :
    Slot α → List ℕ → ℕ → Memory (Status × Option α × Slot α)
  | .null, _, _ => pure (.declined, q.value, .null)
  | .bucket chain, _, _ => do
    if isBucket (Slot.bucket chain).word then
      let (status, value, chain) ← bucketDelete keyOf q chain
      pure (status, value, .ofChain chain)
    else fault
  | .level word slots, shifts, key => do
    if isBucket word then fault
    else
      let shift := shifts.headD 0
      let mask := levelMask shift
      let lvl := levelAddress word mask
      let i := key &&& mask.toNat
      if (slots i).isNull then pure (.declined, q.value, .level word slots)
      else
        let (status, value, slot) ← slotDelete q (slots i) shifts.tail (key >>> shift)
        if slot.isNull then
          let word := countDec word
          if levelEntries word mask = 0 then do
            free lvl ((1 <<< shift) * 8)
            pure (status, value, .null)
          else pure (status, value, .level word (Function.update slots i slot))
        else pure (status, value, .level word (Function.update slots i slot))

/-- `njs_lvlhsh_delete`. -/
def delete (shifts : List ℕ) (lh : Slot α) (q : Query κ α) :
    Memory (Status × Option α × Slot α) :=
  slotDelete keyOf q lh shifts q.keyHash.toNat

end Operations

end Njs.Lvlhsh
