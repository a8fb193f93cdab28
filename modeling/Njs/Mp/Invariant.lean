import Njs.Mp.Pool
import Njs.Rbtree.Runs
import Mathlib.Data.Finset.Card
import Mathlib.Data.List.Nodup
import Mathlib.Data.Nat.Find

/-!
# The invariant of pools

A page in use has a nonzero size, and is a whole page or has chunks. A page with chunks counts
its free chunks, which are the clear bits of its map. Its state says in which queue it is: a
free page is in `free_pages`, and a page with some free chunks is in the queue of its slot.
-/

namespace Njs.Mp

open Njs.Rbtree

/-! ## Settings -/

namespace Settings

variable (s : Settings)

/-- The number of slots. -/
def depth : ℕ := s.pageSizeShift - s.chunkSizeShift

/-- The size of the chunks of a slot. -/
def chunkSize (i : ℕ) : ℕ := 2 ^ (s.chunkSizeShift + i)

/-- The number of chunks in a page of a slot. -/
def chunkCount (i : ℕ) : ℕ := 2 ^ (s.depth - i)

/-- The slot with chunks of this size. -/
def slotAt (i : ℕ) : Slot := ⟨s.chunkSize i, s.chunkCount i - 1⟩

/-- The settings of a pool that takes clusters. -/
structure Paged : Prop where
  chunk_le : s.chunkSizeShift ≤ s.pageSizeShift
  page_pos : 0 < s.pageSizeShift
  page_le : s.pageSizeShift ≤ s.chunkSizeShift + 5
  page_lt : s.pageSizeShift < 32
  pageSize : s.pageSize = 2 ^ s.pageSizeShift
  clusterSize : s.clusterSize = s.pages * 2 ^ s.pageSizeShift
  pages_le : s.pages ≤ 256
  alignment : ∃ a ≤ s.pageSizeShift, s.pageAlignment = 2 ^ a
  slots : 0 < s.depth → s.slots = (List.range s.depth).map s.slotAt

/-- The settings of a pool: where its page size is beyond 32 bits, the fields are zero. -/
def Valid : Prop := s.Paged ∨ s.pageSize = 0 ∧ 32 ≤ s.pageSizeShift ∧ s.clusterSize = 0

variable {s}

namespace Paged

variable (h : s.Paged)

include h

theorem depth_le : s.depth ≤ 5 := by
  have := h.page_le
  unfold depth
  omega

theorem chunkCount_mul {i : ℕ} (hi : i ≤ s.depth) :
    s.chunkCount i * s.chunkSize i = 2 ^ s.pageSizeShift := by
  have := h.chunk_le
  rw [chunkCount, chunkSize, ← Nat.pow_add]
  congr 1
  unfold depth at *
  omega

theorem chunkCount_le {i : ℕ} : s.chunkCount i ≤ 32 := by
  have hle : s.depth - i ≤ 5 := by have := h.depth_le; omega
  exact Nat.pow_le_pow_right (by decide) hle

theorem chunkSize_depth : s.chunkSize s.depth = s.pageSize := by
  have := h.chunk_le
  rw [h.pageSize, chunkSize]
  congr 1
  unfold depth
  omega

end Paged

end Settings

theorem Settings.chunkSize_pos {s : Settings} {i : ℕ} : 0 < s.chunkSize i := Nat.two_pow_pos _

theorem Settings.two_le_chunkCount {s : Settings} {i : ℕ} (hi : i < s.depth) :
    2 ≤ s.chunkCount i := by
  have hone : 1 ≤ s.depth - i := by omega
  exact Nat.pow_le_pow_right (n := 2) (by decide) hone

/-- The size of a page or of its chunks, from the byte in which it is kept. -/
theorem Settings.shifted (s : Settings) (i : ℕ) : 2 ^ i <<< s.chunkSizeShift = s.chunkSize i := by
  rw [Nat.shiftLeft_eq, chunkSize, Nat.pow_add, Nat.mul_comm]

/-! ## Pages -/

/-- What an allocation is taken from. -/
inductive Kind
  | chunk
  | page
  | block
  deriving DecidableEq

/-- The memory of an allocation. -/
structure Piece where
  kind : Kind
  size : ℕ
  deriving DecidableEq

/-- The number of busy chunks. -/
def busy (map : ℕ → Bool) : ℕ := ((Finset.range 32).filter fun c => map c = true).card

theorem busy_set {map : ℕ → Bool} {c : ℕ} (hc : c < 32) (hfree : map c = false) :
    busy (Function.update map c true) = busy map + 1 := by
  have heq : ((Finset.range 32).filter fun d => Function.update map c true d = true) =
      insert c ((Finset.range 32).filter fun d => map d = true) := by
    ext d
    by_cases hd : d = c
    · subst hd
      simp [hc]
    · simp [hd]
  rw [busy, heq, Finset.card_insert_of_notMem (by simp [hfree]), busy]

theorem busy_clear {map : ℕ → Bool} {c : ℕ} (hc : c < 32) (hbusy : map c = true) :
    busy (Function.update map c false) + 1 = busy map := by
  have hset := @busy_set (Function.update map c false) _ hc (Function.update_self ..)
  rw [Function.update_idem, ← hbusy, Function.update_eq_self] at hset
  exact hset.symm

theorem busy_first : busy (fun c => decide (c = 0)) = 1 := by decide

/-- A page with a clear bit among the first `n` has a busy chunk less. -/
theorem exists_clear {map : ℕ → Bool} {n : ℕ} (hn : n ≤ 32) (hlt : busy map < n) :
    ∃ c < n, map c = false := by
  by_contra! hall
  have hsub : Finset.range n ⊆ ((Finset.range 32).filter fun c => map c = true) := by
    intro c hc
    have hcn := Finset.mem_range.mp hc
    refine Finset.mem_filter.mpr ⟨Finset.mem_range.mpr (by omega), ?_⟩
    simpa using hall c hcn
  have hcard := Finset.card_le_card hsub
  rw [Finset.card_range] at hcard
  exact Nat.not_le.mpr hlt hcard

namespace Page

/-- A page that is divided into the chunks of a slot. -/
structure Chunked (s : Settings) (i : ℕ) (g : Page) : Prop where
  lt : i < s.depth
  size : g.size = 2 ^ i
  bound : ∀ c, s.chunkCount i ≤ c → g.map c = false
  count : g.chunks + busy g.map = s.chunkCount i
  busy_pos : 0 < busy g.map

/-- The invariant of the page with a number. -/
structure Good (s : Settings) (number : ℕ) (g : Page) : Prop where
  number : g.number = number
  state : g.size = 0 ∨ g.size = 2 ^ s.depth ∨ ∃ i, g.Chunked s i

/-- The queue in which the page is. -/
def shelf (s : Settings) (g : Page) : Option Queue :=
  if g.size = 0 then some .freePages
  else if g.size = 2 ^ s.depth ∨ g.chunks = 0 then none
  else some (.slot g.size.log2)

/-- A piece at this offset of the page is in use. -/
def Holds (s : Settings) (g : Page) (offset : ℕ) (n : Piece) : Prop :=
  g.size = 2 ^ s.depth ∧ offset = 0 ∧ n = ⟨.page, s.pageSize⟩ ∨
    ∃ i < s.depth, g.size = 2 ^ i ∧ n = ⟨.chunk, s.chunkSize i⟩ ∧
      ∃ c, g.map c = true ∧ offset = c * n.size

variable {s : Settings} {g : Page} {i : ℕ}

theorem shelf_free (h : g.size = 0) : g.shelf s = some .freePages := if_pos h

theorem shelf_whole (h : g.size = 2 ^ s.depth) : g.shelf s = none := by
  have : 0 < 2 ^ s.depth := Nat.two_pow_pos _
  rw [shelf, if_neg (by omega), if_pos (Or.inl h)]

theorem Chunked.shelf (h : g.Chunked s i) :
    g.shelf s = if g.chunks = 0 then none else some (.slot i) := by
  have hpos : 0 < 2 ^ i := Nat.two_pow_pos _
  have hlt : 2 ^ i < 2 ^ s.depth := Nat.pow_lt_pow_right (by decide) h.lt
  have hsize := h.size
  rw [Page.shelf, if_neg (by omega)]
  by_cases hc : g.chunks = 0
  · rw [if_pos (Or.inr hc), if_pos hc]
  · rw [if_neg (by omega), if_neg hc, hsize, Nat.log2_two_pow]

theorem Chunked.size_ne_zero (h : g.Chunked s i) : g.size ≠ 0 := by
  have hpos : 0 < 2 ^ i := Nat.two_pow_pos _
  have := h.size
  omega

/-- A page in a queue is free, or is one of the slot of the queue. -/
theorem Good.of_shelf {number : ℕ} (h : g.Good s number) {q : Queue}
    (hq : g.shelf s = some q) :
    q = .freePages ∧ g.size = 0 ∨ ∃ i, q = .slot i ∧ g.Chunked s i ∧ g.chunks ≠ 0 := by
  rcases h.state with hfree | hwhole | ⟨i, hchunked⟩
  · rw [shelf_free hfree] at hq
    exact Or.inl ⟨(Option.some.inj hq).symm, hfree⟩
  · rw [shelf_whole hwhole] at hq
    cases hq
  · rw [hchunked.shelf] at hq
    split at hq
    · cases hq
    · exact Or.inr ⟨i, (Option.some.inj hq).symm, hchunked, ‹_›⟩

theorem not_holds_free (h : g.size = 0) {offset : ℕ} {n : Piece} : ¬g.Holds s offset n := by
  rintro (⟨hsize, -⟩ | ⟨i, -, hsize, -⟩)
  · have : 0 < 2 ^ s.depth := Nat.two_pow_pos _
    omega
  · have : 0 < 2 ^ i := Nat.two_pow_pos _
    omega

theorem holds_whole (h : g.size = 2 ^ s.depth) {offset : ℕ} {n : Piece} :
    g.Holds s offset n ↔ offset = 0 ∧ n = ⟨.page, s.pageSize⟩ := by
  constructor
  · rintro (⟨-, hrest⟩ | ⟨i, hi, hsize, -⟩)
    · exact hrest
    · have := Nat.pow_right_injective (Nat.le_refl 2) (h.symm.trans hsize)
      omega
  · exact fun hrest => Or.inl ⟨h, hrest⟩

theorem Chunked.holds_iff (h : g.Chunked s i) {offset : ℕ} {n : Piece} :
    g.Holds s offset n ↔
      n = ⟨.chunk, s.chunkSize i⟩ ∧ ∃ c, g.map c = true ∧ offset = c * s.chunkSize i := by
  constructor
  · rintro (⟨hsize, -⟩ | ⟨j, hj, hsize, rfl, hrest⟩)
    · have := Nat.pow_right_injective (Nat.le_refl 2) (hsize.symm.trans h.size)
      have := h.lt
      omega
    · obtain rfl := Nat.pow_right_injective (Nat.le_refl 2) (hsize.symm.trans h.size)
      exact ⟨rfl, hrest⟩
  · rintro ⟨rfl, hrest⟩
    exact Or.inr ⟨i, h.lt, h.size, rfl, hrest⟩

/-- A page in use holds a piece. -/
theorem Good.exists_holds {number : ℕ} (h : g.Good s number) (hsize : g.size ≠ 0) :
    ∃ offset n, g.Holds s offset n := by
  rcases h.state with hfree | hwhole | ⟨i, hchunked⟩
  · exact absurd hfree hsize
  · exact ⟨0, _, Or.inl ⟨hwhole, rfl, rfl⟩⟩
  · obtain ⟨c, hc⟩ := Finset.card_pos.mp hchunked.busy_pos
    exact ⟨_, _, hchunked.holds_iff.mpr ⟨rfl, c, (Finset.mem_filter.mp hc).2, rfl⟩⟩

theorem Good.holds_unique {number offset : ℕ} {n n' : Piece} (h : g.Good s number)
    (hn : g.Holds s offset n) (hn' : g.Holds s offset n') : n = n' := by
  rcases h.state with hfree | hwhole | ⟨i, hchunked⟩
  · exact absurd hn (not_holds_free hfree)
  · rw [((holds_whole hwhole).mp hn).2, ((holds_whole hwhole).mp hn').2]
  · rw [(hchunked.holds_iff.mp hn).1, (hchunked.holds_iff.mp hn').1]

/-- The pieces of a page are inside of it. -/
theorem Good.holds_le {number : ℕ} (hs : s.Paged) (h : g.Good s number) {offset : ℕ}
    {n : Piece} (hheld : g.Holds s offset n) :
    0 < n.size ∧ offset + n.size ≤ 2 ^ s.pageSizeShift := by
  rcases h.state with hfree | hwhole | ⟨i, hchunked⟩
  · exact absurd hheld (not_holds_free hfree)
  · obtain ⟨rfl, rfl⟩ := (holds_whole hwhole).mp hheld
    simp only [hs.pageSize, Nat.zero_add]
    exact ⟨Nat.two_pow_pos _, Nat.le_refl _⟩
  · obtain ⟨rfl, c, hc, rfl⟩ := hchunked.holds_iff.mp hheld
    have hlt : c < s.chunkCount i := by
      by_contra hge
      rw [hchunked.bound c (by omega)] at hc
      cases hc
    refine ⟨Settings.chunkSize_pos, ?_⟩
    rw [← hs.chunkCount_mul (Nat.le_of_lt hchunked.lt), ← Nat.succ_mul]
    exact Nat.mul_le_mul_right _ hlt

end Page

/-! ## Slots -/

theorem findSlot_range {f : ℕ → Slot} {size n j i : ℕ} (hi : j ≤ i) (hn : i < j + n)
    (hsize : size ≤ (f i).size) (hless : ∀ i', j ≤ i' → i' < i → (f i').size < size) :
    findSlot size ((List.range' j n).map f) j = .ok (i, f i) := by
  induction n generalizing j with
  | zero => omega
  | succ n ih =>
    rw [List.range'_succ, List.map_cons, findSlot]
    by_cases heq : j = i
    · subst heq
      rw [if_neg (by omega)]
    · rw [if_pos (hless j (Nat.le_refl j) (by omega))]
      exact ih (by omega) (by omega) fun i' hi' => hless i' (by omega)

/-- The slot that is found has the smallest chunks that are large enough. -/
theorem Settings.Paged.findSlot {s : Settings} (h : s.Paged) (hdepth : 0 < s.depth) {size : ℕ}
    (hsize : size ≤ s.pageSize / 2) :
    ∃ i < s.depth, findSlot size s.slots 0 = .ok (i, s.slotAt i) ∧ size ≤ s.chunkSize i := by
  have hlast : size ≤ s.chunkSize (s.depth - 1) := by
    have hdouble : s.chunkSize (s.depth - 1) * 2 = s.pageSize := by
      rw [← h.chunkSize_depth, Settings.chunkSize, Settings.chunkSize, ← Nat.pow_succ]
      congr 1
      omega
    omega
  have hex : ∃ i, size ≤ s.chunkSize i := ⟨_, hlast⟩
  have hle := Nat.find_min' hex hlast
  refine ⟨Nat.find hex, by omega, ?_, Nat.find_spec hex⟩
  rw [h.slots hdepth, List.range_eq_range']
  exact findSlot_range (Nat.zero_le _) (by omega) (Nat.find_spec hex) fun i' _ hi' =>
    Nat.not_le.mp (Nat.find_min hex hi')

theorem Settings.Paged.findSlot_chunkSize {s : Settings} (h : s.Paged) {i : ℕ}
    (hi : i < s.depth) : Mp.findSlot (s.chunkSize i) s.slots 0 = .ok (i, s.slotAt i) := by
  rw [h.slots (by omega), List.range_eq_range']
  refine findSlot_range (Nat.zero_le _) (by omega) (Nat.le_refl _) fun i' _ hi' => ?_
  exact Nat.pow_lt_pow_right (by decide) (by omega)

/-! ## Pools -/

/-- The memory of a block. -/
def Block.piece (b : Block) : ℕ × ℕ := (b.start, b.length)

/-- A page of one of the clusters. -/
structure Settings.HasPage (s : Settings) (nodes : List Block) (ref : PageRef) : Prop where
  mem : ref.cluster ∈ nodes
  type : ref.cluster.type = .cluster
  lt : ref.number < s.pages

namespace Pool

/-- The tree holds these blocks, and the pages and queues of the clusters agree. -/
structure Shape (pool : Pool) (nodes : List Block) : Prop where
  valid : pool.Valid
  tree : Holds sentinel callback rbtreeCompare pool.blocks nodes
  memory : pool.memory.Perm (nodes.map Block.piece)
  apart : ∀ a ∈ nodes, ∀ b ∈ nodes, a ≠ b → a.Apart b
  cluster : ∀ b ∈ nodes, b.type = .cluster →
    pool.Paged ∧ b.size = pool.clusterSize ∧ pool.pageAlignment ∣ b.start
  page : ∀ ref, pool.HasPage nodes ref → (pool.page ref).Good pool.toSettings ref.number
  nodup : ∀ q, (pool.queue q).Nodup
  queue : ∀ q ref, ref ∈ pool.queue q ↔
    pool.HasPage nodes ref ∧ (pool.page ref).shelf pool.toSettings = some q

/-- Some page of the cluster is in use. -/
def Occupied (pool : Pool) (b : Block) : Prop :=
  ∃ n < pool.pages, (pool.page ⟨b, n⟩).size ≠ 0

/-- The invariant: the pool does not keep free clusters. -/
structure Inv (pool : Pool) (nodes : List Block) : Prop extends Shape pool nodes where
  occupied : ∀ b ∈ nodes, b.type = .cluster → pool.Occupied b

/-- A piece of a page is in use, at this address. -/
def Within (pool : Pool) (ref : PageRef) (p : ℕ) (n : Piece) : Prop :=
  ∃ offset, (pool.page ref).Holds pool.toSettings offset n ∧
    p = ref.cluster.start + ref.number * 2 ^ pool.pageSizeShift + offset

/-- An allocation at the address `p` is in use. -/
def Holding (pool : Pool) (nodes : List Block) (p : ℕ) (n : Piece) : Prop :=
  (∃ b ∈ nodes, b.type ≠ .cluster ∧ p = b.start ∧ n = ⟨.block, b.size⟩) ∨
    ∃ ref, pool.HasPage nodes ref ∧ pool.Within ref p n

variable {pool pool' : Pool} {nodes : List Block} {ref : PageRef}

theorem Shape.length_memory (h : Shape pool nodes) : pool.memory.length = nodes.length := by
  rw [h.memory.length_eq, List.length_map]

theorem Shape.findBlock (h : Shape pool nodes) (p : ℕ) :
    ∃ r, pool.findBlock p = .ok r ∧ FoundBlock p nodes r := by
  obtain ⟨t, m, ht, -, rfl⟩ := h.tree.mended
  have hroot : root sentinel pool.blocks = ptr sentinel t := ht.root
  rw [Pool.findBlock, hroot]
  refine findBlockLoop_spec ht.links h.tree.sorted h.tree.nodup h.apart ?_
  rw [fuel, h.length_memory]
  omega

theorem Shape.paged (h : Shape pool nodes) (href : pool.HasPage nodes ref) : pool.Paged :=
  (h.cluster _ href.mem href.type).1

/-- The pieces of a page are inside its cluster, and inside the page. -/
theorem Shape.within_le (h : Shape pool nodes) (href : pool.HasPage nodes ref) {p : ℕ}
    {n : Piece} (hp : pool.Within ref p n) :
    0 < n.size ∧ ref.cluster.start + ref.number * 2 ^ pool.pageSizeShift ≤ p ∧
      p + n.size ≤ ref.cluster.start + (ref.number + 1) * 2 ^ pool.pageSizeShift ∧
      p + n.size ≤ ref.cluster.start + ref.cluster.size := by
  obtain ⟨offset, hheld, rfl⟩ := hp
  have hs := h.paged href
  obtain ⟨hpos, hle⟩ := (h.page ref href).holds_le hs hheld
  have hsize := (h.cluster _ href.mem href.type).2.1
  rw [hs.clusterSize] at hsize
  have hmul : (ref.number + 1) * 2 ^ pool.pageSizeShift ≤ pool.pages * 2 ^ pool.pageSizeShift :=
    Nat.mul_le_mul_right _ href.lt
  rw [Nat.succ_mul] at hmul ⊢
  refine ⟨hpos, by omega, by omega, by omega⟩

/-- The page of an address in a cluster. -/
theorem Shape.within_number (h : Shape pool nodes) (href : pool.HasPage nodes ref) {p : ℕ}
    {n : Piece} (hp : pool.Within ref p n) :
    ref.cluster.Contains p ∧
      ref.number = (p - ref.cluster.start) / 2 ^ pool.pageSizeShift := by
  obtain ⟨hpos, hge, hlt, hle⟩ := h.within_le href hp
  have hk : 0 < 2 ^ pool.pageSizeShift := Nat.two_pow_pos _
  refine ⟨⟨by omega, by omega⟩, ?_⟩
  symm
  rw [Nat.div_eq_iff hk]
  rw [Nat.succ_mul] at hlt
  omega

/-- The page of an address is determined. -/
theorem Shape.within_unique (h : Shape pool nodes) {ref' : PageRef}
    (href : pool.HasPage nodes ref) (href' : pool.HasPage nodes ref') {p : ℕ}
    {n n' : Piece} (hp : pool.Within ref p n) (hp' : pool.Within ref' p n') : ref' = ref := by
  obtain ⟨hc, hnumber⟩ := h.within_number href hp
  obtain ⟨hc', hnumber'⟩ := h.within_number href' hp'
  have hcluster : ref'.cluster = ref.cluster :=
    hc'.unique hc (h.apart _ href'.mem _ href.mem)
  cases ref
  cases ref'
  simp_all

end Pool

end Njs.Mp
