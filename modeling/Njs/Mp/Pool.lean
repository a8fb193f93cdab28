import Njs.Result
import Njs.Rbtree.Heap
import Mathlib.Algebra.Group.Nat.Defs
import Mathlib.Logic.Function.Basic
import Njs.Rbtree.Search

/-!
# Memory pools

`njs_mp.c`: a pool takes clusters and large blocks from the system and keeps them in a
red-black tree by their addresses. A cluster has pages, and a page is free, in use as a whole,
or divided into chunks of one size.

Addresses are numbers. The contents of the allocated memory are not part of the pool, and the
memory of a block that is allocated apart of its cluster or of its large allocation is not
recorded.
-/

namespace Njs.Mp

/-- `njs_mp_block_type_t`. -/
inductive BlockType
  | cluster
  | discrete
  | embedded
  deriving DecidableEq

/-- `njs_mp_block_t`, but for its node and its pages. The fields of a block do not change as
long as it is in the tree, and no two blocks start at one address, so that the fields stand for
the address of the block. -/
structure Block where
  type : BlockType
  size : ℕ
  start : ℕ
  deriving DecidableEq

/-- The address of a page, `&cluster->pages[number]`. -/
structure PageRef where
  cluster : Block
  number : ℕ
  deriving DecidableEq

/-- `njs_mp_page_t`, but for the link of the queue. The first three fields are bytes. -/
structure Page where
  /-- The size of chunks or of the page, shifted by `chunk_size_shift`, or zero. -/
  size : ℕ
  number : ℕ
  /-- The number of free chunks. -/
  chunks : ℕ
  /-- Bit `chunk & 7` from the left of byte `chunk / 8`: the chunk is busy. -/
  map : ℕ → Bool

/-- `njs_mp_slot_t`, but for its queue. -/
structure Slot where
  size : ℕ
  chunks : ℕ
  deriving DecidableEq

/-- The queues of a pool: `free_pages`, and `pages` of the slot with this index. -/
inductive Queue
  | freePages
  | slot (index : ℕ)
  deriving DecidableEq

/-- The fields of `njs_mp_t` that do not change after its creation. -/
structure Settings where
  chunkSizeShift : ℕ
  pageSizeShift : ℕ
  pageSize : ℕ
  pageAlignment : ℕ
  clusterSize : ℕ
  slots : List Slot

/-- The number of pages in a cluster. -/
def Settings.pages (settings : Settings) : ℕ :=
  settings.clusterSize >>> settings.pageSizeShift

/-- `njs_mp_t`, with the pages of its clusters, and the memory for clusters and large
allocations that it has from the system. -/
structure Pool extends Settings where
  blocks : Rbtree.Heap Block
  page : PageRef → Page
  queue : Queue → List PageRef
  /-- The address and the length of each piece of memory. -/
  memory : List (ℕ × ℕ)

/-- What the system answers to the requests of one call. -/
structure System where
  /-- Whether `njs_malloc` or `njs_zalloc` grants a block apart of its memory. -/
  malloc : ℕ → Bool
  /-- `njs_memalign`, by the alignment and the size. -/
  memalign : ℕ → ℕ → Option ℕ

/-- `NJS_MAX_ALIGNMENT`. -/
def maxAlignment : ℕ := 16

/-- `sizeof(njs_mp_block_t)`. -/
def sizeofBlock : ℕ := 40

/-- `sizeof(njs_mp_page_t)`. -/
def sizeofPage : ℕ := 24

/-- `njs_is_power_of_two`. -/
def isPowerOfTwo (value : ℕ) : Prop := (value - 1) &&& value = 0

instance (value : ℕ) : Decidable (isPowerOfTwo value) :=
  inferInstanceAs (Decidable ((value - 1) &&& value = 0))

/-- `njs_align_size` with the size of a pointer. -/
def alignSize (size : ℕ) : ℕ := (size + 7) / 8 * 8

/-- `value << shift` in an `int`, which has to hold the result. -/
def shiftInt (value shift : ℕ) : Result ℕ :=
  if shift < 32 ∧ value <<< shift < 2 ^ 31 then .ok (value <<< shift) else .error .fault

/-! ## The tree of blocks -/

/-- `njs_mp_rbtree_compare`, where the difference of two addresses fits an `intptr_t`. -/
def rbtreeCompare (block₁ block₂ : Block) : ℤ := (block₁.start : ℤ) - block₂.start

/-- The sentinel of the tree. -/
def sentinel : Block := ⟨.cluster, 0, 0⟩

/-- The place of the callback in the sentinel. -/
def callback : Block := ⟨.discrete, 0, 0⟩

/-- The loop of `njs_mp_find_block`. -/
def findBlockLoop (p : ℕ) (tree : Rbtree.Heap Block) : ℕ → Block → Result (Option Block)
  | 0, _ => .error .fault
  | fuel + 1, block =>
    if block = sentinel then .ok none
    else if p < block.start then findBlockLoop p tree fuel (tree.child .left block)
    else if p ≥ block.start + block.size then findBlockLoop p tree fuel (tree.child .right block)
    else .ok (some block)

namespace Pool

/-- Fuel for the tree: it has one block for each piece of memory. -/
def fuel (pool : Pool) : ℕ := pool.memory.length + 2

/-- `njs_mp_find_block`. -/
def findBlock (pool : Pool) (p : ℕ) : Result (Option Block) :=
  findBlockLoop p pool.blocks pool.fuel (Rbtree.root sentinel pool.blocks)

/-- `njs_rbtree_insert` into the tree, with the memory of the block. -/
def insertBlock (pool : Pool) (block : Block) (length : ℕ) : Result Pool :=
  match Rbtree.insert sentinel rbtreeCompare pool.fuel block pool.blocks with
  | some blocks => .ok { pool with blocks := blocks, memory := (block.start, length) :: pool.memory
      }
  | none => .error .fault

/-- `njs_rbtree_delete` from the tree, and `njs_free` of the memory of the block, which has to
be memory that is not freed. -/
def deleteBlock (pool : Pool) (block : Block) : Result Pool :=
  match Rbtree.delete sentinel pool.fuel block pool.blocks with
  | some blocks =>
    if block.start ∈ pool.memory.map Prod.fst then
      .ok { pool with
        blocks := blocks, memory := pool.memory.filter fun piece => piece.1 ≠ block.start }
    else .error .fault
  | none => .error .fault

/-! ## Pages and queues -/

def setPage (pool : Pool) (ref : PageRef) (page : Page) : Pool :=
  { pool with page := Function.update pool.page ref page }

/-- `njs_queue_insert_head`. -/
def insertHead (pool : Pool) (queue : Queue) (ref : PageRef) : Pool :=
  { pool with queue := Function.update pool.queue queue (ref :: pool.queue queue) }

/-- The queues in which a page can be. -/
def queues (pool : Pool) : List Queue :=
  .freePages :: (List.range pool.slots.length).map .slot

/-- `njs_queue_remove`. The page has to be in a queue. -/
def queueRemove (pool : Pool) (ref : PageRef) : Result Pool :=
  if ∃ queue ∈ pool.queues, ref ∈ pool.queue queue then
    .ok { pool with queue := fun queue => (pool.queue queue).erase ref }
  else .error .fault

/-- The page `pages[n]` of a cluster, which has to be inside the array. -/
def readPage (pool : Pool) (ref : PageRef) : Result Page :=
  if ref.number < pool.pages then .ok (pool.page ref) else .error .fault

/-- `mp->cluster_size >> mp->page_size_shift`, where the shift is less than the width. -/
def pageCount (pool : Pool) : Result ℕ :=
  if pool.pageSizeShift < 32 then .ok pool.pages else .error .fault

/-- `njs_mp_page_addr`, which finds the cluster by the number in the page. -/
def pageAddr (pool : Pool) (ref : PageRef) : Result ℕ :=
  if (pool.page ref).number = ref.number then do
    let offset ← shiftInt (pool.page ref).number pool.pageSizeShift
    pure (ref.cluster.start + offset)
  else .error .fault

end Pool

/-- The search for a slot with appropriate chunk size, which must not leave the slots. -/
def findSlot (size : ℕ) : List Slot → ℕ → Result (ℕ × Slot)
  | [], _ => .error .fault
  | slot :: slots, index =>
    if slot.size < size then findSlot size slots (index + 1) else .ok (index, slot)

/-! ## Creation -/

/-- The first loop of `njs_mp_fast_create`: the size of the smallest chunks. The fuel is the
number of bits of a `size_t`. -/
def smallestChunk (minChunkSize : ℕ) : ℕ → ℕ → ℕ
  | 0, chunkSize => chunkSize
  | fuel + 1, chunkSize =>
    if chunkSize / 2 > minChunkSize then smallestChunk minChunkSize fuel (chunkSize / 2)
    else chunkSize / 2

/-- The second loop of `njs_mp_fast_create`. -/
def fillSlots (pageSize : ℕ) : ℕ → ℕ → List Slot
  | 0, _ => []
  | fuel + 1, chunkSize =>
    ⟨chunkSize % 2 ^ 32, (pageSize / chunkSize - 1) % 2 ^ 8⟩ ::
      if chunkSize * 2 < pageSize then fillSlots pageSize fuel (chunkSize * 2) else []

/-- The loop of `njs_mp_shift`. -/
def shiftLoop : ℕ → ℕ → ℕ → ℕ
  | 0, shift, _ => shift
  | fuel + 1, shift, n => if n / 2 ≠ 0 then shiftLoop fuel (shift + 1) (n / 2) else shift + 1

/-- `njs_mp_shift`. -/
def shift (n : ℕ) : ℕ := shiftLoop 64 0 (n / 2)

/-- `njs_mp_fast_create`, in memory with any contents. -/
def fastCreate (clusterSize pageAlignment pageSize minChunkSize : ℕ) : Pool where
  chunkSizeShift := shift minChunkSize % 2 ^ 8
  pageSizeShift := shift pageSize % 2 ^ 8
  pageSize := pageSize % 2 ^ 32
  pageAlignment := max pageAlignment maxAlignment % 2 ^ 32
  clusterSize := clusterSize % 2 ^ 32
  slots := fillSlots pageSize 64 (smallestChunk minChunkSize 64 pageSize)
  blocks := Rbtree.init sentinel callback ⟨fun _ _ => sentinel, fun _ => sentinel, fun _ => .black⟩
  page := fun _ => ⟨0, 0, 0, fun _ => false⟩
  queue := fun _ => []
  memory := []

/-- `njs_mp_create`, which gives no pool where the parameters are refused. -/
def create (clusterSize pageAlignment pageSize minChunkSize : UInt64) : Option Pool :=
  let clusterSize := clusterSize.toNat
  let pageSize := pageSize.toNat
  let minChunkSize := minChunkSize.toNat
  if ¬isPowerOfTwo pageAlignment.toNat ∨ ¬isPowerOfTwo pageSize ∨ ¬isPowerOfTwo minChunkSize then
    none
  else
    let pageAlignment := max pageAlignment.toNat maxAlignment
    if pageSize < 64 ∨ pageSize < pageAlignment ∨ pageSize < minChunkSize ∨
        minChunkSize * 32 % 2 ^ 64 < pageSize ∨ clusterSize < pageSize ∨
        clusterSize / pageSize > 256 ∨ clusterSize % pageSize ≠ 0 then
      none
    else some (fastCreate clusterSize pageAlignment pageSize minChunkSize)

namespace Pool

/-- `njs_mp_is_empty`. -/
def isEmpty (pool : Pool) : Prop :=
  Rbtree.root sentinel pool.blocks = sentinel ∧ pool.queue .freePages = []

instance (pool : Pool) : Decidable pool.isEmpty :=
  inferInstanceAs (Decidable (_ ∧ _))

/-! ## Allocation -/

/-- The loop of `njs_mp_alloc_cluster` over its pages, from the last to the first. Each one is
put before the next page, which is the head of the queue. -/
def linkPages (cluster : Block) : ℕ → List PageRef → List PageRef
  | 0, pages => pages
  | n + 1, pages => linkPages cluster n (⟨cluster, n⟩ :: pages)

/-- The pages of a new cluster: they are zero but for their numbers, and free. -/
def addPages (pool : Pool) (cluster : Block) (n : ℕ) : Pool :=
  { pool with
    page := fun ref =>
      if ref.cluster = cluster then ⟨0, ref.number % 2 ^ 8, 0, fun _ => false⟩ else pool.page ref
    queue := Function.update pool.queue .freePages
      (linkPages cluster n (pool.queue .freePages)) }

/-- `njs_mp_alloc_cluster`. Without pages, the first one that it writes is outside the block. -/
def allocCluster (sys : System) (pool : Pool) : Result (Option Block × Pool) := do
  let n ← pool.pageCount
  if ¬sys.malloc (sizeofBlock + n * sizeofPage) then pure (none, pool)
  else
    match sys.memalign pool.pageAlignment pool.clusterSize with
    | none => pure (none, pool)
    | some start =>
      if n = 0 then .error .fault
      else
        let cluster : Block := ⟨.cluster, pool.clusterSize, start⟩
        let pool ← (pool.addPages cluster n).insertBlock cluster pool.clusterSize
        pure (some cluster, pool)

/-- The end of `njs_mp_alloc_page`: the first page of the queue `free_pages`. -/
def takePage (pool : Pool) : Result (Option PageRef × Pool) :=
  match pool.queue .freePages with
  | [] => .error .fault
  | ref :: _ => do
    let pool ← pool.queueRemove ref
    pure (some ref, pool)

/-- `njs_mp_alloc_page`. -/
def allocPage (sys : System) (pool : Pool) : Result (Option PageRef × Pool) :=
  if pool.queue .freePages = [] then do
    let (cluster, pool) ← allocCluster sys pool
    match cluster with
    | none => pure (none, pool)
    | some _ => takePage pool
  else takePage pool

/-- The loop of `njs_mp_alloc_chunk` over the bits of a byte, which starts at `chunk`. -/
def allocBit (map : ℕ → Bool) (size : ℕ) : ℕ → ℕ → ℕ → Option (ℕ × (ℕ → Bool))
  | 0, _, _ => none
  | bits + 1, chunk, offset =>
    if map chunk = false then some (offset, Function.update map chunk true)
    else allocBit map size bits (chunk + 1) (offset + size)

/-- `njs_mp_alloc_chunk` from the byte `n` on, of which so many are left. -/
def allocChunk (map : ℕ → Bool) (size : ℕ) : ℕ → ℕ → ℕ → Result (ℕ × (ℕ → Bool))
  | 0, _, _ => .error .fault
  | bytes + 1, n, offset =>
    if ∃ bit < 8, map (8 * n + bit) = false then
      match allocBit map size 8 (8 * n) offset with
      | some found => .ok found
      | none => .error .fault
    else allocChunk map size bytes (n + 1) (offset + size * 8)

/-- The first page of a slot, from which `njs_mp_alloc_small` takes a chunk. -/
def allocFromPage (pool : Pool) (slot : Slot) (ref : PageRef) : Result (Option ℕ × Pool) := do
  let page := pool.page ref
  let p ← pool.pageAddr ref
  let (offset, map) ← allocChunk page.map slot.size 4 0 0
  let chunks := (page.chunks + 2 ^ 8 - 1) % 2 ^ 8
  let pool := pool.setPage ref { page with map := map, chunks := chunks }
  let pool ← if chunks = 0 then pool.queueRemove ref else pure pool
  pure (some (p + offset), pool)

/-- A fresh page, which `njs_mp_alloc_small` divides into chunks for a slot. -/
def dividePage (pool : Pool) (index : ℕ) (slot : Slot) (ref : PageRef) :
    Result (Option ℕ × Pool) := do
  let pool := pool.insertHead (.slot index) ref
  let page : Page := { pool.page ref with
    map := fun chunk => chunk = 0
    chunks := slot.chunks
    size := slot.size >>> pool.chunkSizeShift % 2 ^ 8 }
  let pool := pool.setPage ref page
  let p ← pool.pageAddr ref
  pure (some p, pool)

/-- A fresh page that `njs_mp_alloc_small` gives as a whole. -/
def wholePage (pool : Pool) (ref : PageRef) : Result (Option ℕ × Pool) := do
  let pool := pool.setPage ref
    { pool.page ref with size := pool.pageSize >>> pool.chunkSizeShift % 2 ^ 8 }
  let p ← pool.pageAddr ref
  pure (some p, pool)

/-- A page from `njs_mp_alloc_page`, and what `njs_mp_alloc_small` does with it. -/
def withPage (sys : System) (pool : Pool) (use : Pool → PageRef → Result (Option ℕ × Pool)) :
    Result (Option ℕ × Pool) := do
  let (page, pool) ← allocPage sys pool
  match page with
  | none => pure (none, pool)
  | some ref => use pool ref

/-- `njs_mp_alloc_small`. -/
def allocSmall (sys : System) (pool : Pool) (size : ℕ) : Result (Option ℕ × Pool) :=
  if size ≤ pool.pageSize / 2 then do
    let (index, slot) ← findSlot size pool.slots 0
    match pool.queue (.slot index) with
    | ref :: _ => allocFromPage pool slot ref
    | [] => withPage sys pool fun pool ref => dividePage pool index slot ref
  else withPage sys pool wholePage

/-- `njs_mp_alloc_large`. -/
def allocLarge (sys : System) (pool : Pool) (alignment size : ℕ) : Result (Option ℕ × Pool) :=
  if size ≥ 2 ^ 32 - 1 then .ok (none, pool)
  else if isPowerOfTwo size then
    if ¬sys.malloc sizeofBlock then .ok (none, pool)
    else
      match sys.memalign alignment size with
      | none => .ok (none, pool)
      | some p => do
        let pool ← pool.insertBlock ⟨.discrete, size, p⟩ size
        pure (some p, pool)
  else
    match sys.memalign alignment (alignSize size + sizeofBlock) with
    | none => .ok (none, pool)
    | some p => do
      let pool ← pool.insertBlock ⟨.embedded, size, p⟩ (alignSize size + sizeofBlock)
      pure (some p, pool)

/-- `njs_mp_alloc`. -/
def alloc (sys : System) (pool : Pool) (size : ℕ) : Result (Option ℕ × Pool) :=
  if size ≤ pool.pageSize then allocSmall sys pool size
  else allocLarge sys pool maxAlignment size

/-- `njs_mp_align`. -/
def align (sys : System) (pool : Pool) (alignment size : ℕ) : Result (Option ℕ × Pool) :=
  if isPowerOfTwo alignment then
    if size ≤ pool.pageSize ∧ alignment ≤ pool.pageAlignment then
      if max size alignment ≤ pool.pageSize then allocSmall sys pool (max size alignment)
      else allocLarge sys pool alignment (max size alignment)
    else allocLarge sys pool alignment size
  else .ok (none, pool)

/-! ## Release -/

/-- The test of `njs_mp_chunk_free` whether the pages from `number` on are free. -/
def pagesFree (pool : Pool) (cluster : Block) : ℕ → ℕ → Bool
  | 0, _ => true
  | n + 1, number =>
    if (pool.page ⟨cluster, number⟩).size ≠ 0 then false else pagesFree pool cluster n (number + 1)

/-- The loop of `njs_mp_chunk_free` that removes the pages from `number` on. -/
def removePages (cluster : Block) : ℕ → ℕ → Pool → Result Pool
  | 0, _, pool => .ok pool
  | n + 1, number, pool => do
    let pool ← pool.queueRemove ⟨cluster, number⟩
    removePages cluster n (number + 1) pool

/-- The end of `njs_mp_chunk_free`: a cluster is freed if all its pages are free. -/
def clusterFree (pool : Pool) (cluster : Block) : Result Pool := do
  let n ← pool.pageCount
  if pagesFree pool cluster n 0 then
    let pool ← removePages cluster n 0 pool
    pool.deleteBlock cluster
  else pure pool

/-- A page is freed. -/
def pageFree (pool : Pool) (ref : PageRef) : Result Pool :=
  let pool := pool.setPage ref { pool.page ref with size := 0 }
  (pool.insertHead .freePages ref).clusterFree ref.cluster

/-- The bit of a busy chunk is cleared, and the page is put into the queue of its slot, or
freed where it has no other busy chunk. -/
def bitFree (pool : Pool) (ref : PageRef) (size chunk : ℕ) : Result Pool := do
  let page := pool.page ref
  let page := { page with map := Function.update page.map chunk false }
  let pool := pool.setPage ref page
  let (index, slot) ← findSlot size pool.slots 0
  if page.chunks ≠ slot.chunks then
    let chunks := (page.chunks + 1) % 2 ^ 8
    let pool := pool.setPage ref { page with chunks := chunks }
    if chunks = 1 then pure (pool.insertHead (.slot index) ref) else pure pool
  else
    let pool ← pool.queueRemove ref
    pageFree pool ref

/-- `njs_mp_chunk_free`, with the error that it returns. -/
def chunkFree (pool : Pool) (cluster : Block) (p : ℕ) : Result (Option String × Pool) := do
  let n := (p - cluster.start) >>> pool.pageSizeShift
  let start := cluster.start + n <<< pool.pageSizeShift
  let ref : PageRef := ⟨cluster, n⟩
  let page ← pool.readPage ref
  if page.size = 0 then pure (some "freed pointer points to already free page: %p", pool)
  else
    let size ← shiftInt page.size pool.chunkSizeShift
    if size ≠ pool.pageSize then
      let offset := (p - start) &&& (pool.pageSize - 1)
      let chunk := offset / size
      if offset ≠ chunk * size then pure (some "freed pointer points to wrong chunk: %p", pool)
      else if page.map chunk = false then
        pure (some "freed pointer points to already free chunk: %p", pool)
      else
        let pool ← bitFree pool ref size chunk
        pure (none, pool)
    else if p ≠ start then pure (some "invalid pointer to chunk: %p", pool)
    else
      let pool ← pageFree pool ref
      pure (none, pool)

/-- `njs_mp_free`, with the error that it logs. -/
def free (pool : Pool) (p : ℕ) : Result (Option String × Pool) := do
  match ← pool.findBlock p with
  | none => pure (some "freed pointer is out of mp: %p\n", pool)
  | some block =>
    if block.type = .cluster then chunkFree pool block p
    else if p = block.start then
      let pool ← pool.deleteBlock block
      pure (none, pool)
    else pure (some "freed pointer points to middle of block: %p\n", pool)

end Pool

end Njs.Mp

/-!
## The search for a block

The blocks of a pool take disjoint pieces of memory, so that the descent of `njs_mp_find_block`
by start addresses finds the one block that contains an address.
-/

namespace Njs.Mp

open Njs.Lib Njs.Lib.ColorTree Njs.Rbtree

theorem rbtreeCompare_preorder : TotalPreorder rbtreeCompare := by
  constructor <;> intros <;> simp only [rbtreeCompare] at * <;> omega

namespace Block

/-- The memory that the system gives for a block. -/
def length (b : Block) : ℕ :=
  match b.type with
  | .cluster => b.size
  | .discrete => b.size
  | .embedded => alignSize b.size + sizeofBlock

/-- The memory that no other block can have: the system gives distinct addresses for nothing. -/
def span (b : Block) : ℕ := max 1 b.length

/-- The address is in the block, as `njs_mp_find_block` sees it. -/
def Contains (b : Block) (p : ℕ) : Prop := b.start ≤ p ∧ p < b.start + b.size

/-- The memory of two blocks is disjoint. -/
def Apart (a b : Block) : Prop := a.start + a.span ≤ b.start ∨ b.start + b.span ≤ a.start

theorem size_le_length (b : Block) : b.size ≤ b.length := by
  unfold length
  split
  · exact Nat.le_refl _
  · exact Nat.le_refl _
  · unfold alignSize
    omega

theorem size_le_span (b : Block) : b.size ≤ b.span :=
  Nat.le_trans b.size_le_length (Nat.le_max_right ..)

theorem span_pos (b : Block) : 0 < b.span := Nat.le_max_left ..

theorem Apart.symm {a b : Block} (h : a.Apart b) : b.Apart a := Or.symm h

/-- No block starts inside of another one. -/
theorem Apart.not_contains {a b : Block} (h : a.Apart b) : ¬b.Contains a.start := by
  have hspan := a.span_pos
  have hsize := b.size_le_span
  unfold Contains
  rcases h with h | h <;> omega

theorem Apart.start_ne {a b : Block} (h : a.Apart b) : a.start ≠ b.start := by
  have hspan := a.span_pos
  have hspanb := b.span_pos
  rcases h with h | h <;> omega

/-- An address is in one block at most. -/
theorem Contains.unique {a b : Block} {p : ℕ} (ha : a.Contains p) (hb : b.Contains p)
    (hapart : a ≠ b → a.Apart b) : a = b := by
  by_contra hne
  have hsa := a.size_le_span
  have hsb := b.size_le_span
  unfold Contains at ha hb
  rcases hapart hne with h | h <;> omega

end Block

/-- What `njs_mp_find_block` gives. -/
def FoundBlock (p : ℕ) (nodes : List Block) : Option Block → Prop
  | some b => b ∈ nodes ∧ b.Contains p
  | none => ∀ b ∈ nodes, ¬b.Contains p

theorem FoundBlock.congr {p : ℕ} {nodes nodes' : List Block} {r : Option Block}
    (hfound : FoundBlock p nodes r) (hsub : ∀ b ∈ nodes, b ∈ nodes')
    (hother : ∀ b ∈ nodes', b ∈ nodes ∨ ¬b.Contains p) : FoundBlock p nodes' r := by
  cases r with
  | some b => exact ⟨hsub b hfound.1, hfound.2⟩
  | none => exact fun b hb => (hother b hb).elim (hfound b) id

theorem findBlockLoop_spec {p fuel : ℕ} {tree : Heap Block} {t : ColorTree Block} {q : Block}
    (ht : Rep sentinel tree q t) (hs : Sorted rbtreeCompare t.inorder)
    (hnd : t.inorder.Nodup) (hapart : ∀ a ∈ t.inorder, ∀ b ∈ t.inorder, a ≠ b → a.Apart b)
    (hfuel : t.inorder.length < fuel) :
    ∃ r, findBlockLoop p tree fuel (ptr sentinel t) = .ok r ∧ FoundBlock p t.inorder r := by
  induction t generalizing q fuel with
  | nil =>
    obtain ⟨fuel, rfl⟩ : ∃ k, fuel = k + 1 := ⟨fuel - 1, by simp [inorder] at hfuel; omega⟩
    exact ⟨none, if_pos rfl, by simp [FoundBlock, inorder]⟩
  | node c l x r ihl ihr =>
    obtain ⟨fuel, rfl⟩ : ∃ k, fuel = k + 1 := ⟨fuel - 1, by omega⟩
    obtain ⟨hx, -, -, hl, hr, hrl, hrr⟩ := ht
    obtain ⟨hsl, hsr, hlx, hxr⟩ := sorted_node hs
    have hmem : ∀ z, z ∈ (ColorTree.node c l x r).inorder ↔
        z ∈ l.inorder ∨ z = x ∨ z ∈ r.inorder := by simp [inorder]
    have hlen : l.inorder.length + (r.inorder.length + 1) < fuel + 1 := by
      simpa [inorder] using hfuel
    have hsplit : (l.inorder ++ x :: r.inorder).Nodup := hnd
    obtain ⟨hndl, hndr, hdisjoint⟩ := List.nodup_append.mp hsplit
    change ∃ res, findBlockLoop p tree (fuel + 1) x = .ok res ∧ _
    rw [findBlockLoop, if_neg hx, hl, hr]
    by_cases hlt : p < x.start
    · rw [if_pos hlt]
      obtain ⟨res, hrun, hfound⟩ := ihl hrl hsl hndl
        (fun a ha b hb => hapart a ((hmem a).mpr (Or.inl ha)) b ((hmem b).mpr (Or.inl hb)))
        (by omega : l.inorder.length < fuel)
      refine ⟨res, hrun, hfound.congr (fun z hz => (hmem z).mpr (Or.inl hz)) fun z hz => ?_⟩
      rcases (hmem z).mp hz with hz | rfl | hz
      · exact Or.inl hz
      · exact Or.inr fun hc => Nat.not_le.mpr hlt hc.1
      · have hle := hxr z hz
        simp only [rbtreeCompare] at hle
        exact Or.inr fun hc => by have := hc.1; omega
    · rw [if_neg hlt]
      by_cases hge : p ≥ x.start + x.size
      · rw [if_pos hge]
        obtain ⟨res, hrun, hfound⟩ := ihr hrr hsr (List.nodup_cons.mp hndr).2
          (fun a ha b hb => hapart a ((hmem a).mpr (Or.inr (Or.inr ha))) b
            ((hmem b).mpr (Or.inr (Or.inr hb))))
          (by omega : r.inorder.length < fuel)
        refine ⟨res, hrun, hfound.congr (fun z hz => (hmem z).mpr (Or.inr (Or.inr hz)))
          fun z hz => ?_⟩
        rcases (hmem z).mp hz with hzl | rfl | hz
        · -- a block on the left ends before the block at this node starts
          have hle := hlx z hzl
          have hne : z ≠ x := hdisjoint z hzl x (List.mem_cons_self ..)
          have happ := hapart z hz x ((hmem x).mpr (Or.inr (Or.inl rfl))) hne
          have hspan := x.span_pos
          have hsize := z.size_le_span
          simp only [rbtreeCompare] at hle
          refine Or.inr fun hc => ?_
          have hc' := hc.2
          rcases happ with h | h <;> omega
        · exact Or.inr fun hc => by have := hc.2; omega
        · exact Or.inl hz
      · rw [if_neg hge]
        exact ⟨some x, rfl, (hmem x).mpr (Or.inr (Or.inl rfl)), by omega, by omega⟩

end Njs.Mp
