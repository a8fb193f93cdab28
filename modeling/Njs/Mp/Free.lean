import Njs.Mp.Moves
import Njs.Lib.Hazard

/-!
# The release of memory

`njs_mp_free` takes exactly one allocation back where its argument is the start of it, and
leaves the pool as it is for any other address. An allocation of no bytes that is a block of
its own is not found: no address is in the block.
-/

namespace Njs.Mp

open Njs.Lib

namespace Page

variable {s : Settings} {g : Page} {i c d : ℕ}

theorem Chunked.lt_count (h : g.Chunked s i) (hc : g.map c = true) : c < s.chunkCount i := by
  by_contra hge
  rw [h.bound c (by omega)] at hc
  cases hc

/-- A chunk is freed, and the page has other busy chunks. -/
theorem Chunked.clear (hs : s.Paged) (h : g.Chunked s i) (hc : g.map c = true)
    (hmore : g.chunks ≠ s.chunkCount i - 1) :
    (g.chunks + 1) % 2 ^ 8 = g.chunks + 1 ∧
      Chunked s i { g with map := Function.update g.map c false, chunks := g.chunks + 1 } := by
  have hlt := h.lt_count hc
  have hle := hs.chunkCount_le (i := i)
  have hclear := busy_clear (by omega) hc
  have hcount := h.count
  refine ⟨Nat.mod_eq_of_lt (by omega), h.lt, h.size, fun d hd => ?_, ?_, ?_⟩
  · change Function.update g.map c false d = false
    rw [Function.update_of_ne (by omega)]
    exact h.bound d hd
  · change g.chunks + 1 + busy (Function.update g.map c false) = s.chunkCount i
    omega
  · change 0 < busy (Function.update g.map c false)
    omega

/-- A page that counts all chunks but one as free has one busy chunk. -/
theorem Chunked.unique (hs : s.Paged) (h : g.Chunked s i)
    (hlast : g.chunks = s.chunkCount i - 1) (hc : g.map c = true) (hd : g.map d = true) :
    d = c := by
  have hle := hs.chunkCount_le (i := i)
  have htwo := Settings.two_le_chunkCount h.lt
  have hcount := h.count
  have hone : busy g.map ≤ 1 := by omega
  have hmem : ∀ e, g.map e = true → e ∈ (Finset.range 32).filter fun c => g.map c = true :=
    fun e he => by
      have := h.lt_count he
      exact Finset.mem_filter.mpr ⟨Finset.mem_range.mpr (by omega), he⟩
  exact Finset.card_le_one.mp hone d (hmem d hd) c (hmem c hc)

/-- What the page holds without the chunk. -/
theorem Chunked.holds_clear (h : g.Chunked s i) {g' : Page} (h' : g'.Chunked s i)
    (hmap : g'.map = Function.update g.map c false) {offset : ℕ} {n : Piece} :
    g'.Holds s offset n ↔ g.Holds s offset n ∧ offset ≠ c * s.chunkSize i := by
  have hpos := Settings.chunkSize_pos (s := s) (i := i)
  rw [h.holds_iff, h'.holds_iff, hmap]
  constructor
  · rintro ⟨rfl, d, hd, rfl⟩
    by_cases heq : d = c
    · rw [heq, Function.update_self] at hd
      cases hd
    · rw [Function.update_of_ne heq] at hd
      refine ⟨⟨rfl, d, hd, rfl⟩, fun hmul => heq ?_⟩
      exact Nat.eq_of_mul_eq_mul_right hpos hmul
  · rintro ⟨⟨rfl, d, hd, rfl⟩, hne⟩
    have heq : d ≠ c := fun heq => hne (heq ▸ rfl)
    exact ⟨rfl, d, by rwa [Function.update_of_ne heq], rfl⟩

end Page

namespace Pool

open Njs.Lib

variable {pool pool' : Pool} {nodes : List Block} {ref : PageRef} {b : Block}

@[simp] theorem setPage_setPage {g g' : Page} :
    (pool.setPage ref g).setPage ref g' = pool.setPage ref g' := by
  simp only [setPage, Function.update_idem]

/-! ## Queues -/

theorem queueRemove_eq {q : Queue} (hq : q ∈ pool.queues) (href : ref ∈ pool.queue q) :
    pool.queueRemove ref =
      .ok { pool with queue := fun queue => (pool.queue queue).erase ref } :=
  if_pos ⟨q, hq, href⟩

theorem freePages_mem_queues : Queue.freePages ∈ pool.queues := List.mem_cons_self ..

theorem slot_mem_queues (hs : pool.Paged) {i : ℕ} (hi : i < pool.depth) :
    Queue.slot i ∈ pool.queues := by
  refine List.mem_cons_of_mem _ (List.mem_map_of_mem (List.mem_range.mpr ?_))
  rwa [hs.slots (by omega), List.length_map, List.length_range]

theorem queueRemove_setPage {g : Page} {i : ℕ} (hs : pool.Paged) (hi : i < pool.depth)
    (href : ref ∈ pool.queue (.slot i)) : (pool.setPage ref g).queueRemove ref =
      .ok { pool.setPage ref g with queue := fun queue => (pool.queue queue).erase ref } :=
  queueRemove_eq (slot_mem_queues hs hi) href

/-! ## Clusters -/

theorem pagesFree_iff {n number : ℕ} : pagesFree pool b n number = true ↔
    ∀ i, number ≤ i → i < number + n → (pool.page ⟨b, i⟩).size = 0 := by
  induction n generalizing number with
  | zero => exact ⟨fun _ i hi hlt => by omega, fun _ => rfl⟩
  | succ n ih =>
    rw [pagesFree]
    by_cases hsize : (pool.page ⟨b, number⟩).size = 0
    · rw [if_neg (not_not.mpr hsize), ih]
      constructor
      · intro h i hi hlt
        by_cases heq : i = number
        · exact heq ▸ hsize
        · exact h i (by omega) (by omega)
      · exact fun h i hi hlt => h i (by omega) (by omega)
    · rw [if_pos hsize]
      exact ⟨(nomatch ·), fun h => absurd (h number (Nat.le_refl _) (by omega)) hsize⟩

theorem removePages_spec {n number : ℕ} (hnodup : ∀ q, (pool.queue q).Nodup)
    (hmem : ∀ i, number ≤ i → i < number + n → ⟨b, i⟩ ∈ pool.queue .freePages) :
    ∃ pool', removePages b n number pool = .ok pool' ∧ pool'.toSettings = pool.toSettings ∧
      pool'.blocks = pool.blocks ∧ pool'.memory = pool.memory ∧ pool'.page = pool.page ∧
      (∀ q, (pool'.queue q).Nodup) ∧ ∀ q (r : PageRef), r ∈ pool'.queue q ↔
        r ∈ pool.queue q ∧ ¬(r.cluster = b ∧ number ≤ r.number ∧ r.number < number + n) := by
  induction n generalizing number pool with
  | zero => exact ⟨pool, rfl, rfl, rfl, rfl, rfl, hnodup, fun q r => by simp⟩
  | succ n ih =>
    rw [removePages, queueRemove_eq freePages_mem_queues (hmem number (Nat.le_refl _) (by omega))]
    obtain ⟨pool', hrun, hsettings, hblocks, hmemory, hpage, hnodup', hqueue⟩ :=
      @ih { pool with queue := fun queue => (pool.queue queue).erase ⟨b, number⟩ } (number + 1)
        (fun q => (hnodup q).erase _) fun i hi hlt => by
          refine (hnodup _).mem_erase_iff.mpr ⟨fun heq => ?_, hmem i (by omega) (by omega)⟩
          have := congrArg PageRef.number heq
          simp only at this
          omega
    refine ⟨pool', hrun, hsettings, hblocks, hmemory, hpage, hnodup', fun q r => ?_⟩
    rw [hqueue, (hnodup q).mem_erase_iff]
    obtain ⟨cluster, i⟩ := r
    simp only [ne_eq, PageRef.mk.injEq]
    constructor
    · rintro ⟨⟨hne, hr⟩, hout⟩
      refine ⟨hr, fun hin => ?_⟩
      by_cases heq : i = number
      · exact hne ⟨hin.1, heq⟩
      · exact hout ⟨hin.1, by omega, by omega⟩
    · rintro ⟨hr, hout⟩
      exact ⟨⟨fun heq => hout ⟨heq.1, by omega, by omega⟩, hr⟩,
        fun hin => hout ⟨hin.1, by omega, by omega⟩⟩

/-- What the release of a cluster leaves in use. -/
theorem clusterFree_spec (h : Shape pool nodes) (hb : b ∈ nodes) (htype : b.type = .cluster)
    (hothers : ∀ a ∈ nodes, a.type = .cluster → a ≠ b → pool.Occupied a) :
    ∃ pool' nodes', pool.clusterFree b = .ok pool' ∧ Inv pool' nodes' ∧
      pool'.toSettings = pool.toSettings ∧ pool'.page = pool.page ∧
        pool'.memory ⊆ pool.memory ∧
          ∀ p n, pool'.Holding nodes' p n ↔ pool.Holding nodes p n := by
  have hs := (h.cluster b hb htype).1
  have hcount : pool.pageCount = .ok pool.pages := if_pos hs.page_lt
  rw [clusterFree, hcount]
  change ∃ pool' nodes', (if pagesFree pool b pool.pages 0 then
    removePages b pool.pages 0 pool >>= fun pool => pool.deleteBlock b else pure pool) = _ ∧ _
  by_cases hfree : pagesFree pool b pool.pages 0 = true
  · rw [if_pos hfree]
    rw [pagesFree_iff] at hfree
    have hsize : ∀ i < pool.pages, (pool.page ⟨b, i⟩).size = 0 := fun i hi =>
      hfree i (Nat.zero_le _) (by omega)
    obtain ⟨pool₁, hrun, hsettings, hblocks, hmemory, hpage, hnodup, hqueue⟩ :=
      @removePages_spec _ b pool.pages 0 h.nodup fun i _ hi =>
        (h.queue _ _).mpr ⟨⟨hb, htype, by simpa using hi⟩, Page.shelf_free (hsize i (by omega))⟩
    have hd : Detached pool pool₁ b := by
      refine ⟨hsettings, hblocks, hmemory, hpage, hnodup, fun q r => ?_⟩
      rw [hqueue]
      refine and_congr_right fun hr => not_congr ⟨And.left, fun heq => ⟨heq, Nat.zero_le _, ?_⟩⟩
      have := ((h.queue q r).mp hr).1.lt
      omega
    obtain ⟨pool', nodes', hdelete, hdeleted⟩ := h.deleteBlock hb hd
    rw [hrun]
    refine ⟨pool', nodes', hdelete, ⟨hdeleted.shape, fun a ha hatype => ?_⟩, hdeleted.settings,
      hdeleted.page, hdeleted.sub, fun p n => ?_⟩
    · obtain ⟨hmem, hne⟩ := (hdeleted.mem a).mp ha
      have hocc := hothers a hmem hatype hne
      rwa [Occupied, hdeleted.settings, hdeleted.page]
    · rw [hdeleted.holding]
      constructor
      · rintro (⟨a, ha, -, hrest⟩ | ⟨ref, href, -, hp⟩)
        · exact Or.inl ⟨a, ha, hrest⟩
        · exact Or.inr ⟨ref, href, hp⟩
      · rintro (⟨a, ha, hatype, hrest⟩ | ⟨ref, href, hp⟩)
        · exact Or.inl ⟨a, ha, fun heq => hatype (heq ▸ htype), hatype, hrest⟩
        · refine Or.inr ⟨ref, href, fun heq => ?_, hp⟩
          subst heq
          obtain ⟨offset, hheld, -⟩ := hp
          exact Page.not_holds_free (hsize ref.number href.lt) hheld
  · rw [if_neg hfree]
    refine ⟨pool, nodes, rfl, ⟨h, fun a ha hatype => ?_⟩, rfl, rfl, fun _ hp => hp,
      fun _ _ => Iff.rfl⟩
    by_cases hne : a = b
    · rw [pagesFree_iff] at hfree
      push Not at hfree
      obtain ⟨i, -, hi, hsize⟩ := hfree
      exact ⟨i, by omega, hne ▸ hsize⟩
    · exact hothers a ha hatype hne

/-! ## Pages and chunks -/

/-- The pool after a release, which has taken the allocation at `p`. -/
structure Freed (pool pool' : Pool) (nodes : List Block) (p : ℕ) : Prop where
  held : ∃ n, 0 < n.size ∧ pool.Holding nodes p n
  changed : pool' ≠ pool
  settings : pool'.toSettings = pool.toSettings
  memory : pool'.memory ⊆ pool.memory
  inv : ∃ nodes', Inv pool' nodes' ∧
    ∀ q n, pool'.Holding nodes' q n ↔ pool.Holding nodes q n ∧ q ≠ p

/-- The address of a piece of a page. -/
def pieceAddr (pool : Pool) (ref : PageRef) (offset : ℕ) : ℕ :=
  ref.cluster.start + ref.number * 2 ^ pool.pageSizeShift + offset

/-- The last piece in use of a page is released, after which the page is free. -/
theorem pageFree_spec {pool₁ : Pool} {o : ℕ} {m : Piece} (h : Inv pool nodes)
    (href : pool.HasPage nodes ref) (hheld : (pool.page ref).Holds pool.toSettings o m)
    (hlast : ∀ offset n, (pool.page ref).Holds pool.toSettings offset n → offset = o)
    (hnumber : (pool₁.page ref).number = ref.number)
    (hm : Moved pool ((pool₁.setPage ref { pool₁.page ref with size := 0 }).insertHead
      .freePages ref) ref { pool₁.page ref with size := 0 }) :
    ∃ pool', pool₁.pageFree ref = .ok pool' ∧ Freed pool pool' nodes (pool.pieceAddr ref o) := by
  have hs := h.paged href
  have hpos := ((h.page ref href).holds_le hs hheld).1
  have hshape := h.toShape.moved hm href ⟨hnumber, Or.inl rfl⟩
  obtain ⟨pool', nodes', hrun, hinv, hsettings, hpage, hmemory, hholding⟩ :=
    clusterFree_spec hshape href.mem href.type fun a ha htype hne => by
      obtain ⟨i, hi, hsize⟩ := h.occupied a ha htype
      refine ⟨i, hm.settings ▸ hi, ?_⟩
      rw [hm.page, Function.update_of_ne fun heq => hne (congrArg PageRef.cluster heq)]
      exact hsize
  refine ⟨pool', hrun, ⟨m, hpos, Or.inr ⟨ref, href, o, hheld, rfl⟩⟩, fun heq => ?_,
    hsettings.trans hm.settings, hm.memory ▸ hmemory, nodes', hinv, fun q n => ?_⟩
  · rw [heq, hm.page] at hpage
    have hsize := congrArg Page.size (congrFun hpage ref)
    rw [Function.update_self] at hsize
    exact Page.not_holds_free hsize hheld
  · rw [hholding]
    refine h.toShape.holding_remove hm href hheld fun offset n => ?_
    exact ⟨fun hnew => absurd hnew (Page.not_holds_free rfl),
      fun hold => absurd (hlast offset n hold.1) hold.2⟩

theorem bitFree_eq (hs : pool.Paged) {i c : ℕ} (hi : i < pool.depth) :
    pool.bitFree ref (pool.chunkSize i) c =
      let page := { pool.page ref with map := Function.update (pool.page ref).map c false }
      if (pool.page ref).chunks ≠ pool.chunkCount i - 1 then
        let chunks := ((pool.page ref).chunks + 1) % 2 ^ 8
        let pool := pool.setPage ref { page with chunks := chunks }
        if chunks = 1 then .ok (pool.insertHead (.slot i) ref) else .ok pool
      else (pool.setPage ref page).queueRemove ref >>= fun pool => pageFree pool ref := by
  have hslot : ∀ page, findSlot (pool.chunkSize i) (pool.setPage ref page).slots 0 =
      .ok (i, pool.slotAt i) := fun _ => hs.findSlot_chunkSize hi
  simp only [bitFree, hslot]
  change (if _ ≠ _ then (if _ = 1 then _ else _) else _) = _
  simp only [setPage_setPage]
  rfl

/-- A page that stays in use has lost the piece. -/
theorem Inv.freed_moved {g : Page} {o : ℕ} {m : Piece} (h : Inv pool nodes)
    (hm : Moved pool pool' ref g)
    (href : pool.HasPage nodes ref) (hgood : g.Good pool.toSettings ref.number)
    (hsize : g.size ≠ 0) (hheld : (pool.page ref).Holds pool.toSettings o m)
    (hremove : ∀ offset n, g.Holds pool.toSettings offset n ↔
      (pool.page ref).Holds pool.toSettings offset n ∧ offset ≠ o) :
    Freed pool pool' nodes (pool.pieceAddr ref o) := by
  have hpos := ((h.page ref href).holds_le (h.paged href) hheld).1
  refine ⟨⟨m, hpos, Or.inr ⟨ref, href, o, hheld, rfl⟩⟩, fun heq => ?_, hm.settings,
    hm.memory ▸ List.Subset.refl _, nodes,
    h.moved_inv (fun a ha ht _ => h.occupied a ha ht) hm href hgood hsize,
    fun q n => h.holding_remove hm href hheld hremove⟩
  have hpage := hm.page
  rw [heq] at hpage
  have hsame : pool.page ref = g := by rw [congrFun hpage ref, Function.update_self]
  exact ((hremove o m).mp (hsame ▸ hheld)).2 rfl

theorem bitFree_spec {i c : ℕ} (h : Inv pool nodes) (href : pool.HasPage nodes ref)
    (hg : (pool.page ref).Chunked pool.toSettings i) (hc : (pool.page ref).map c = true) :
    ∃ pool', pool.bitFree ref (pool.chunkSize i) c = .ok pool' ∧
      Freed pool pool' nodes (pool.pieceAddr ref (c * pool.chunkSize i)) := by
  have hs := h.paged href
  have hheld : (pool.page ref).Holds pool.toSettings (c * pool.chunkSize i)
      ⟨.chunk, pool.chunkSize i⟩ :=
    hg.holds_iff.mpr ⟨rfl, c, hc, rfl⟩
  have hnumber := (h.page ref href).number
  rw [bitFree_eq hs hg.lt]
  by_cases hmore : (pool.page ref).chunks ≠ pool.chunkCount i - 1
  · obtain ⟨hmod, hclear⟩ := hg.clear hs hc hmore
    have hremove := fun offset n => @Page.Chunked.holds_clear _ _ _ c hg _ hclear rfl offset n
    have hgood : Page.Good pool.toSettings ref.number { pool.page ref with
        map := Function.update (pool.page ref).map c false
        chunks := (pool.page ref).chunks + 1 } := ⟨hnumber, Or.inr (Or.inr ⟨i, hclear⟩)⟩
    have hshelf := hclear.shelf
    rw [if_neg (Nat.succ_ne_zero _)] at hshelf
    rw [if_pos hmore, hmod]
    by_cases hfirst : (pool.page ref).chunks = 0
    · have hm := h.toShape.moved_head (by rw [hg.shelf, if_pos hfirst]) hshelf
      refine ⟨_, if_pos (by rw [hfirst]), ?_⟩
      exact h.freed_moved hm href hgood hclear.size_ne_zero hheld hremove
    · have hm := h.toShape.moved_stay href (hshelf.trans (by rw [hg.shelf, if_neg hfirst]))
      refine ⟨_, if_neg (by omega), ?_⟩
      exact h.freed_moved hm href hgood hclear.size_ne_zero hheld hremove
  · have hlast := not_not.mp hmore
    have hpos : (pool.page ref).chunks ≠ 0 := by
      have := Settings.two_le_chunkCount hg.lt
      omega
    have hqueue : ref ∈ pool.queue (.slot i) := by
      rw [h.queue, hg.shelf, if_neg hpos]
      exact ⟨href, rfl⟩
    rw [if_neg hmore, queueRemove_setPage hs hg.lt hqueue]
    refine pageFree_spec h href hheld (fun offset n hold => ?_) ?_ ?_
    · obtain ⟨rfl, d, hd, rfl⟩ := hg.holds_iff.mp hold
      rw [hg.unique hs hlast hc hd]
    · simp only [setPage, Function.update_self]
      exact hnumber
    · exact h.toShape.moved_over (Page.shelf_free rfl) rfl rfl rfl (Function.update_idem ..) rfl

/-! ## Addresses -/

/-- The pool after a release that it refuses: the address starts no allocation with bytes. -/
structure Kept (pool pool' : Pool) (nodes : List Block) (p : ℕ) : Prop where
  same : pool' = pool
  held : ∀ n, pool.Holding nodes p n → n.size = 0

/-- A whole page is in use of which the size does not fit an `int`. -/
def Overflowing (pool : Pool) (nodes : List Block) : Prop :=
  pool.pageSize = 2 ^ 31 ∧
    ∃ ref, pool.HasPage nodes ref ∧ (pool.page ref).size = 2 ^ pool.depth

theorem shiftInt_chunkSize (hs : pool.Paged) {i : ℕ} (hi : i < pool.depth) :
    shiftInt (2 ^ i) pool.chunkSizeShift = .ok (pool.chunkSize i) := by
  have hlt : pool.chunkSize i < 2 ^ 31 := by
    have := hs.page_lt
    refine Nat.pow_lt_pow_right (by decide) ?_
    unfold Settings.depth at hi
    omega
  have hshift := hs.chunk_le
  have hpage := hs.page_lt
  rw [← Settings.shifted] at hlt ⊢
  exact if_pos ⟨by omega, hlt⟩

theorem shiftInt_pageSize (hs : pool.Paged) :
    shiftInt (2 ^ pool.depth) pool.chunkSizeShift =
      if pool.pageSize = 2 ^ 31 then .error .fault else .ok pool.pageSize := by
  have hshift := hs.chunk_le
  have hpage := hs.page_lt
  have hle : pool.pageSize ≤ 2 ^ 31 := by
    rw [hs.pageSize]
    exact Nat.pow_le_pow_right (by decide) (by omega)
  rw [shiftInt, Settings.shifted, hs.chunkSize_depth]
  by_cases hwide : pool.pageSize = 2 ^ 31
  · rw [if_pos hwide, if_neg (by omega)]
  · rw [if_neg hwide]
    exact if_pos ⟨by omega, by omega⟩

theorem chunkFree_spec {p : ℕ} (h : Inv pool nodes) (hb : b ∈ nodes) (htype : b.type = .cluster)
    (hc : b.Contains p) :
    Unless (Overflowing pool nodes) .fault (pool.chunkFree b p) fun r =>
      Freed pool r.2 nodes p ∨ Kept pool r.2 nodes p := by
  obtain ⟨hs, hsize, -⟩ := h.cluster b hb htype
  have hk : 0 < 2 ^ pool.pageSizeShift := Nat.two_pow_pos _
  obtain ⟨hge, hlt⟩ := hc
  rw [hsize, hs.clusterSize] at hlt
  let n := (p - b.start) / 2 ^ pool.pageSizeShift
  let o := (p - b.start) % 2 ^ pool.pageSizeShift
  have hn : n < pool.pages := (Nat.div_lt_iff_lt_mul hk).mpr (by omega)
  have ho : o < 2 ^ pool.pageSizeShift := Nat.mod_lt _ hk
  have hp : p = b.start + n * 2 ^ pool.pageSizeShift + o := by
    have := Nat.div_add_mod (p - b.start) (2 ^ pool.pageSizeShift)
    have hcomm := Nat.mul_comm n (2 ^ pool.pageSizeShift)
    simp only [n, o] at hcomm ⊢
    omega
  have href : pool.HasPage nodes ⟨b, n⟩ := ⟨hb, htype, hn⟩
  have hgood := h.page _ href
  have hholding : ∀ m, pool.Holding nodes p m ↔
      (pool.page ⟨b, n⟩).Holds pool.toSettings o m := fun m => by
    rw [h.toShape.holding_iff href ⟨hge, by rw [hsize, hs.clusterSize]; exact hlt⟩ rfl]
    constructor
    · rintro ⟨offset, hheld, heq⟩
      have : offset = o := by simp only at heq; omega
      exact this ▸ hheld
    · exact fun hheld => ⟨o, hheld, hp⟩
  have hread : pool.readPage ⟨b, n⟩ = .ok (pool.page ⟨b, n⟩) := if_pos hn
  have hshift : (p - b.start) >>> pool.pageSizeShift = n := Nat.shiftRight_eq_div_pow ..
  have hstart : p - (b.start + n <<< pool.pageSizeShift) = o := by
    rw [Nat.shiftLeft_eq]
    omega
  have hand : o &&& (pool.pageSize - 1) = o := by
    rw [hs.pageSize, Nat.and_two_pow_sub_one_eq_mod, Nat.mod_eq_of_lt ho]
  rw [chunkFree]
  simp only [hshift, hread, hstart, hand]
  change Unless _ _ (if _ then _ else _) _
  rcases hgood.state with hfree | hwhole | ⟨i, hchunked⟩
  · rw [if_pos hfree]
    refine Unless.ok (Or.inr ⟨rfl, fun m hm => ?_⟩)
    exact absurd ((hholding m).mp hm) (Page.not_holds_free hfree)
  · have hpos : 0 < 2 ^ pool.depth := Nat.two_pow_pos _
    rw [if_neg (by omega), hwhole, shiftInt_pageSize hs]
    by_cases hwide : pool.pageSize = 2 ^ 31
    · rw [if_pos hwide]
      exact Unless.error ⟨hwide, ⟨b, n⟩, href, hwhole⟩
    · rw [if_neg hwide]
      change Unless _ _ (if _ then _ else if _ then _ else _) _
      rw [if_neg (not_not.mpr rfl), Nat.shiftLeft_eq]
      by_cases hzero : o = 0
      · rw [if_neg (by omega)]
        have hheld := (Page.holds_whole hwhole).mpr ⟨rfl, rfl⟩
        obtain ⟨pool', hrun, hfreed⟩ := pageFree_spec h href hheld
          (fun offset m hold => ((Page.holds_whole hwhole).mp hold).1) hgood.number
          (h.toShape.moved_head (Page.shelf_whole hwhole) (Page.shelf_free rfl))
        have haddr : pool.pieceAddr ⟨b, n⟩ 0 = p := by
          simp only [pieceAddr]
          omega
        rw [hrun]
        exact Unless.ok (Or.inl (haddr ▸ hfreed))
      · rw [if_pos (by omega)]
        refine Unless.ok (Or.inr ⟨rfl, fun m hm => ?_⟩)
        exact absurd ((Page.holds_whole hwhole).mp ((hholding m).mp hm)).1 hzero
  · rw [if_neg hchunked.size_ne_zero, hchunked.size, shiftInt_chunkSize hs hchunked.lt]
    change Unless _ _ (if _ then (if _ then _ else if _ then _ else _) else _) _
    have hne : pool.chunkSize i ≠ pool.pageSize := by
      rw [← hs.chunkSize_depth]
      have hlt := hchunked.lt
      have : pool.chunkSize i < pool.chunkSize pool.depth :=
        Nat.pow_lt_pow_right (by decide) (by omega)
      omega
    rw [if_pos hne]
    by_cases hwrong : o ≠ o / pool.chunkSize i * pool.chunkSize i
    · rw [if_pos hwrong]
      refine Unless.ok (Or.inr ⟨rfl, fun m hm => ?_⟩)
      obtain ⟨-, c, -, hc⟩ := hchunked.holds_iff.mp ((hholding m).mp hm)
      rw [hc, Nat.mul_div_cancel _ Settings.chunkSize_pos] at hwrong
      exact absurd rfl hwrong
    · rw [if_neg hwrong]
      have hchunk := not_not.mp hwrong
      by_cases hbit : (pool.page ⟨b, n⟩).map (o / pool.chunkSize i) = false
      · rw [if_pos hbit]
        refine Unless.ok (Or.inr ⟨rfl, fun m hm => ?_⟩)
        obtain ⟨-, c, hbusy, hc⟩ := hchunked.holds_iff.mp ((hholding m).mp hm)
        rw [hc, Nat.mul_div_cancel _ Settings.chunkSize_pos, hbusy] at hbit
        cases hbit
      · rw [if_neg hbit]
        obtain ⟨pool', hrun, hfreed⟩ := bitFree_spec h href hchunked (by simpa using hbit)
        have haddr : pool.pieceAddr ⟨b, n⟩ (o / pool.chunkSize i * pool.chunkSize i) = p := by
          simp only [pieceAddr]
          omega
        rw [hrun]
        exact Unless.ok (Or.inl (haddr ▸ hfreed))

/-- The specification of `njs_mp_free`. -/
theorem free_spec (h : Inv pool nodes) (p : ℕ) :
    Unless (Overflowing pool nodes) .fault (pool.free p) fun r =>
      Freed pool r.2 nodes p ∨ Kept pool r.2 nodes p := by
  obtain ⟨r, hrun, hfound⟩ := h.findBlock p
  rw [free, hrun]
  cases r with
  | none =>
    refine Unless.ok (Or.inr ⟨rfl, ?_⟩)
    rintro n (⟨b, hb, -, rfl, rfl⟩ | ⟨ref, href, hp⟩)
    · by_contra hpos
      change b.size ≠ 0 at hpos
      exact hfound b hb ⟨Nat.le_refl _, by omega⟩
    · exact absurd (h.within_number href hp).1 (hfound _ href.mem)
  | some b =>
    obtain ⟨hb, hc⟩ := hfound
    change Unless _ _ (if _ then _ else if _ then _ else _) _
    by_cases htype : b.type = .cluster
    · rw [if_pos htype]
      exact chunkFree_spec h hb htype hc
    · rw [if_neg htype]
      by_cases hp : p = b.start
      · rw [if_pos hp]
        obtain ⟨pool', nodes', hdelete, hdeleted⟩ :=
          h.toShape.deleteBlock hb (h.toShape.detached htype)
        rw [hdelete]
        refine Unless.ok (Or.inl ⟨⟨_, ?_, Or.inl ⟨b, hb, htype, hp, rfl⟩⟩, fun heq => ?_,
          hdeleted.settings, hdeleted.sub, nodes', ⟨hdeleted.shape, fun a ha hatype => ?_⟩, fun q n
              => ?_⟩)
        · have := hc.2
          change 0 < b.size
          omega
        · exact hdeleted.memory (congrArg Pool.memory heq)
        · have hocc := h.occupied a ((hdeleted.mem a).mp ha).1 hatype
          rwa [Occupied, hdeleted.settings, hdeleted.page]
        · rw [hdeleted.holding, hp]
          constructor
          · rintro (⟨a, ha, hne, hatype, rfl, rfl⟩ | ⟨ref, href, hne, hpw⟩)
            · exact ⟨Or.inl ⟨a, ha, hatype, rfl, rfl⟩, (h.apart a ha b hb hne).start_ne⟩
            · refine ⟨Or.inr ⟨ref, href, hpw⟩, fun heq => ?_⟩
              have hin := (h.within_number href hpw).1
              exact (h.apart b hb _ href.mem hne.symm).not_contains (heq ▸ hin)
          · rintro ⟨(⟨a, ha, hatype, rfl, rfl⟩ | ⟨ref, href, hpw⟩), hne⟩
            · exact Or.inl ⟨a, ha, fun heq => hne (heq ▸ rfl), hatype, rfl, rfl⟩
            · exact Or.inr ⟨ref, href, fun heq => htype (heq ▸ href.type), hpw⟩
      · rw [if_neg hp]
        refine Unless.ok (Or.inr ⟨rfl, ?_⟩)
        rintro n (⟨a, ha, hatype, rfl, rfl⟩ | ⟨ref, href, hpw⟩)
        · have hne : a ≠ b := fun heq => hp (heq ▸ rfl)
          exact absurd hc (h.apart a ha b hb hne).not_contains
        · have hc' := (h.within_number href hpw).1
          have heq := hc'.unique hc (h.apart _ href.mem _ hb)
          exact absurd (heq ▸ href.type) htype

end Pool

end Njs.Mp
