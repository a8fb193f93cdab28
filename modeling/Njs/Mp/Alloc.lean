import Njs.Mp.Free

/-!
# Allocation

An allocation adds one piece to what is in use. A new cluster is for a moment a cluster without
a page in use, until its first page is taken.
-/

namespace Njs.Mp

open Njs.Lib

/-! ## The first clear bit -/

section Bits

variable {map : ℕ → Bool} {size c : ℕ}

theorem allocBit_spec {bits chunk offset : ℕ} (hle : chunk ≤ c) (hlt : c < chunk + bits)
    (hc : map c = false) (hbusy : ∀ d, chunk ≤ d → d < c → map d = true) :
    Pool.allocBit map size bits chunk offset =
      some (offset + (c - chunk) * size, Function.update map c true) := by
  induction bits generalizing chunk offset with
  | zero => omega
  | succ bits ih =>
    rw [Pool.allocBit]
    by_cases heq : chunk = c
    · subst heq
      rw [if_pos hc, Nat.sub_self, Nat.zero_mul, Nat.add_zero]
    · rw [if_neg (by rw [hbusy chunk (Nat.le_refl _) (by omega)]; decide),
        ih (by omega) (by omega) fun d hd => hbusy d (by omega)]
      have hsub : c - chunk = c - (chunk + 1) + 1 := by omega
      rw [hsub, Nat.succ_mul, Nat.add_right_comm, Nat.add_assoc]

theorem allocChunk_spec {bytes n offset : ℕ} (hle : 8 * n ≤ c) (hlt : c < 8 * (n + bytes))
    (hc : map c = false) (hbusy : ∀ d, 8 * n ≤ d → d < c → map d = true) :
    Pool.allocChunk map size bytes n offset =
      .ok (offset + (c - 8 * n) * size, Function.update map c true) := by
  induction bytes generalizing n offset with
  | zero => omega
  | succ bytes ih =>
    rw [Pool.allocChunk]
    by_cases hbyte : c < 8 * n + 8
    · have hex : ∃ bit < 8, map (8 * n + bit) = false :=
        ⟨c - 8 * n, by omega, by rwa [Nat.add_sub_cancel' hle]⟩
      rw [if_pos hex, allocBit_spec hle hbyte hc hbusy]
    · have hfull : ¬∃ bit < 8, map (8 * n + bit) = false := by
        rintro ⟨bit, hbit, hclear⟩
        rw [hbusy _ (by omega) (by omega)] at hclear
        cases hclear
      rw [if_neg hfull, ih (by omega) (by omega) fun d hd => hbusy d (by omega)]
      have hsub : (c - 8 * n) * size = size * 8 + (c - 8 * (n + 1)) * size := by
        rw [Nat.mul_comm size 8, ← Nat.add_mul]
        congr 1
        omega
      rw [hsub, Nat.add_assoc]

/-- A page with a free chunk gives the first one. -/
theorem Page.Chunked.allocChunk {s : Settings} {g : Page} {i : ℕ} (hs : s.Paged)
    (h : g.Chunked s i) (hpos : g.chunks ≠ 0) :
    ∃ c < s.chunkCount i, g.map c = false ∧
      Pool.allocChunk g.map size 4 0 0 = .ok (c * size, Function.update g.map c true) := by
  have hle := hs.chunkCount_le (i := i)
  have hcount := h.count
  obtain ⟨d, hd, hclear⟩ := exists_clear hle (by omega : busy g.map < s.chunkCount i)
  have hex : ∃ c, g.map c = false := ⟨d, hclear⟩
  have hmin := Nat.find_min' hex hclear
  refine ⟨Nat.find hex, by omega, Nat.find_spec hex, ?_⟩
  rw [allocChunk_spec (Nat.zero_le _) (by omega) (Nat.find_spec hex) fun c _ hc => ?_]
  · rw [Nat.mul_zero, Nat.sub_zero, Nat.zero_add]
  · simpa using Nat.find_min hex hc

end Bits

namespace Page

variable {s : Settings} {g : Page} {i c : ℕ}

/-- A chunk is taken. -/
theorem Chunked.set (hs : s.Paged) (h : g.Chunked s i) (hlt : c < s.chunkCount i)
    (hc : g.map c = false) (hpos : g.chunks ≠ 0) :
    (g.chunks + 2 ^ 8 - 1) % 2 ^ 8 = g.chunks - 1 ∧
      Chunked s i { g with map := Function.update g.map c true, chunks := g.chunks - 1 } := by
  have hle := hs.chunkCount_le (i := i)
  have hset := busy_set (by omega) hc
  have hcount := h.count
  refine ⟨by omega, h.lt, h.size, fun d hd => ?_, ?_, ?_⟩
  · change Function.update g.map c true d = false
    rw [Function.update_of_ne (by omega)]
    exact h.bound d hd
  · change g.chunks - 1 + busy (Function.update g.map c true) = s.chunkCount i
    omega
  · change 0 < busy (Function.update g.map c true)
    omega

/-- What the page holds with the chunk. -/
theorem Chunked.holds_set (h : g.Chunked s i) {g' : Page} (h' : g'.Chunked s i)
    (hmap : g'.map = Function.update g.map c true) {offset : ℕ} {n : Piece} :
    g'.Holds s offset n ↔
      g.Holds s offset n ∨ offset = c * s.chunkSize i ∧ n = ⟨.chunk, s.chunkSize i⟩ := by
  rw [h.holds_iff, h'.holds_iff, hmap]
  constructor
  · rintro ⟨rfl, d, hd, rfl⟩
    by_cases heq : d = c
    · exact Or.inr ⟨by rw [heq], rfl⟩
    · rw [Function.update_of_ne heq] at hd
      exact Or.inl ⟨rfl, d, hd, rfl⟩
  · rintro (⟨rfl, d, hd, rfl⟩ | ⟨rfl, rfl⟩)
    · refine ⟨rfl, d, ?_, rfl⟩
      by_cases heq : d = c
      · rw [heq, Function.update_self]
      · rwa [Function.update_of_ne heq]
    · exact ⟨rfl, c, Function.update_self .., rfl⟩

/-- A fresh page with its first chunk taken. -/
theorem chunked_first (hs : s.Paged) (hi : i < s.depth) {number : ℕ} :
    Chunked s i ⟨s.chunkSize i >>> s.chunkSizeShift % 2 ^ 8, number, (s.slotAt i).chunks,
      fun c => decide (c = 0)⟩ := by
  have htwo := Settings.two_le_chunkCount hi
  have hshift : s.chunkSize i >>> s.chunkSizeShift = 2 ^ i := by
    rw [← Settings.shifted, Nat.shiftLeft_shiftRight]
  have hsmall : 2 ^ i < 2 ^ 8 := by
    have := hs.depth_le
    exact Nat.pow_lt_pow_right (by decide) (by omega)
  refine ⟨hi, ?_, fun c hc => ?_, ?_, ?_⟩
  · change s.chunkSize i >>> s.chunkSizeShift % 2 ^ 8 = 2 ^ i
    rw [hshift, Nat.mod_eq_of_lt hsmall]
  · have : c ≠ 0 := by omega
    simp [this]
  · change s.chunkCount i - 1 + busy (fun c => decide (c = 0)) = _
    rw [busy_first]
    omega
  · exact Nat.lt_of_lt_of_eq (by decide) busy_first.symm

/-- A page that is taken as a whole. -/
theorem size_whole (hs : s.Paged) :
    s.pageSize >>> s.chunkSizeShift % 2 ^ 8 = 2 ^ s.depth := by
  have hshift : s.pageSize >>> s.chunkSizeShift = 2 ^ s.depth := by
    rw [← hs.chunkSize_depth, ← Settings.shifted, Nat.shiftLeft_shiftRight]
  have hsmall : 2 ^ s.depth < 2 ^ 8 := by
    have := hs.depth_le
    exact Nat.pow_lt_pow_right (by decide) (by omega)
  rw [hshift, Nat.mod_eq_of_lt hsmall]

end Page

namespace Pool

variable {sys : System} {pool pool' : Pool} {nodes : List Block} {ref : PageRef} {g : Page}

/-- The pool after an allocation at `p`. -/
structure Granted (pool pool' : Pool) (nodes : List Block) (p : ℕ) (n : Piece) : Prop where
  fresh : ∀ m, ¬pool.Holding nodes p m
  settings : pool'.toSettings = pool.toSettings
  inv : ∃ nodes', Inv pool' nodes' ∧
    ∀ q m, pool'.Holding nodes' q m ↔ pool.Holding nodes q m ∨ q = p ∧ m = n

/-- An `int` does not hold the distance of the page from the start of its cluster. -/
def Far (s : Settings) (ref : PageRef) : Prop := 2 ^ 31 ≤ ref.number * 2 ^ s.pageSizeShift

theorem pageAddr_spec (hs : pool.Paged) (hnumber : (pool.page ref).number = ref.number) :
    Unless (Far pool.toSettings ref) .fault (pool.pageAddr ref) fun p =>
      p = pool.pieceAddr ref 0 := by
  have hpage := hs.page_lt
  rw [pageAddr, if_pos hnumber, hnumber, shiftInt, Nat.shiftLeft_eq]
  by_cases hwide : ref.number * 2 ^ pool.pageSizeShift < 2 ^ 31
  · rw [if_pos ⟨hpage, hwide⟩]
    exact Unless.ok rfl
  · rw [if_neg fun hand => hwide hand.2]
    exact Unless.error (Nat.not_lt.mp hwide)

/-- A page in use after a change has a new piece, which is apart of what was in use. -/
theorem Shape.granted {o : ℕ} {m : Piece} (h : Shape pool nodes)
    (hothers : ∀ a ∈ nodes, a.type = .cluster → a ≠ ref.cluster → pool.Occupied a)
    (hm : Moved pool pool' ref g) (href : pool.HasPage nodes ref)
    (hgood : g.Good pool.toSettings ref.number) (hsize : g.size ≠ 0)
    (hfree : ∀ n, ¬(pool.page ref).Holds pool.toSettings o n)
    (hadd : ∀ offset n, g.Holds pool.toSettings offset n ↔
      (pool.page ref).Holds pool.toSettings offset n ∨ offset = o ∧ n = m) :
    Granted pool pool' nodes (pool.pieceAddr ref o) m := by
  have hinv := h.moved_inv hothers hm href hgood hsize
  have href' : pool'.HasPage nodes ref := hm.settings ▸ href
  have hwithin : pool'.Within ref (pool.pieceAddr ref o) m := by
    rw [hm.within, if_pos rfl]
    exact ⟨o, (hadd o m).mpr (Or.inr ⟨rfl, rfl⟩), rfl⟩
  obtain ⟨hc, hnumber⟩ := hinv.toShape.within_number href' hwithin
  rw [hm.settings] at hnumber
  refine ⟨fun n hheld => ?_, hm.settings, nodes, hinv, fun q n => Shape.holding_add hm href hadd⟩
  obtain ⟨offset, hheld, heq⟩ := (h.holding_iff href hc hnumber).mp hheld
  have : offset = o := by
    unfold pieceAddr at heq
    omega
  exact hfree n (this ▸ hheld)

/-! ## Pages with free chunks -/

theorem allocFromPage_spec {i : ℕ} (h : Inv pool nodes) (href : ref ∈ pool.queue (.slot i)) :
    Unless (Far pool.toSettings ref) .fault (pool.allocFromPage (pool.slotAt i) ref) fun r =>
      ∃ p, r.1 = some p ∧ Granted pool r.2 nodes p ⟨.chunk, pool.chunkSize i⟩ := by
  obtain ⟨hpage, hshelf⟩ := (h.queue _ _).mp href
  have hs := h.paged hpage
  have hgood := h.page ref hpage
  obtain ⟨hg, hpos⟩ : (pool.page ref).Chunked pool.toSettings i ∧ (pool.page ref).chunks ≠ 0 := by
    rcases hgood.of_shelf hshelf with ⟨heq, -⟩ | ⟨j, heq, hg, hpos⟩
    · cases heq
    · cases heq
      exact ⟨hg, hpos⟩
  obtain ⟨c, hc, hclear, hrun⟩ := @Page.Chunked.allocChunk (pool.chunkSize i) _ _ _ hs hg hpos
  obtain ⟨hchunks, hset⟩ := hg.set hs hc hclear hpos
  have hgranted : ∀ pool', Moved pool pool' ref { pool.page ref with
        map := Function.update (pool.page ref).map c true
        chunks := (pool.page ref).chunks - 1 } →
      Granted pool pool' nodes (pool.pieceAddr ref (c * pool.chunkSize i))
        ⟨.chunk, pool.chunkSize i⟩ := fun pool' hm => by
    refine h.toShape.granted (fun a ha ht _ => h.occupied a ha ht) hm hpage
      ⟨hgood.number, Or.inr (Or.inr ⟨i, hset⟩)⟩ hset.size_ne_zero (fun n hheld => ?_)
      fun offset n => hg.holds_set hset rfl
    obtain ⟨-, d, hd, heq⟩ := hg.holds_iff.mp hheld
    rw [← Nat.eq_of_mul_eq_mul_right Settings.chunkSize_pos heq, hclear] at hd
    cases hd
  refine (pageAddr_spec hs hgood.number).bind fun p hp => ?_
  have haddr : p + c * pool.chunkSize i = pool.pieceAddr ref (c * pool.chunkSize i) := by
    rw [hp, pieceAddr, pieceAddr, Nat.add_zero]
  simp only [Settings.slotAt, hrun, hchunks]
  change Unless _ _ (if _ then _ >>= fun pool' => pure (some (p + c * pool.chunkSize i), pool')
    else pure (some (p + c * pool.chunkSize i), _)) _
  rw [haddr]
  by_cases hlast : (pool.page ref).chunks - 1 = 0
  · have hm := @Shape.moved_out _ _ ref _ h.toShape (hset.shelf.trans (if_pos hlast))
    rw [if_pos hlast, queueRemove_setPage hs hg.lt href]
    exact Unless.ok ⟨_, rfl, hgranted _ hm⟩
  · have hm := h.toShape.moved_stay hpage (hset.shelf.trans (by
      rw [hg.shelf, if_neg hlast, if_neg hpos]))
    rw [if_neg hlast]
    exact Unless.ok ⟨_, rfl, hgranted _ hm⟩

/-! ## Fresh pages -/

/-- A pool of which one page, which is free, is taken out of the queues: no other cluster is
without a page in use. -/
structure Taken (pool base pool' : Pool) (nodes nodes' : List Block) (ref : PageRef) : Prop where
  shape : Shape base nodes'
  others : ∀ a ∈ nodes', a.type = .cluster → a ≠ ref.cluster → base.Occupied a
  page : base.HasPage nodes' ref
  free : (base.page ref).size = 0
  settings : base.toSettings = pool.toSettings
  taken : pool' = { base with queue := fun q => (base.queue q).erase ref }
  holding : ∀ p n, base.Holding nodes' p n ↔ pool.Holding nodes p n

theorem linkPages_eq (cluster : Block) (n : ℕ) (pages : List PageRef) :
    linkPages cluster n pages = (List.range n).map (fun i => ⟨cluster, i⟩) ++ pages := by
  induction n generalizing pages with
  | zero => rfl
  | succ n ih => rw [linkPages, ih, List.range_succ, List.map_append, List.append_assoc]; rfl

theorem takePage_spec (hne : pool.queue .freePages ≠ []) :
    ∃ first, (pool.queue .freePages).head? = some first ∧ pool.takePage =
      .ok (some first, { pool with queue := fun q => (pool.queue q).erase first }) := by
  rw [takePage]
  cases hqueue : pool.queue .freePages with
  | nil => exact absurd hqueue hne
  | cons first rest =>
    have hmem : first ∈ pool.queue .freePages := hqueue ▸ List.mem_cons_self ..
    refine ⟨first, rfl, ?_⟩
    change (pool.queueRemove first >>= _) = _
    rw [queueRemove_eq freePages_mem_queues hmem]
    rfl

/-- The pages of a new cluster, where no other page is free. -/
theorem Inv.extends_addPages {b : Block} (h : Inv pool nodes) (hs : pool.Paged)
    (hempty : pool.queue .freePages = []) (htype : b.type = .cluster) (hb : b ∉ nodes) :
    Extends pool (pool.addPages b pool.pages) b := by
  have hfree : (pool.addPages b pool.pages).queue .freePages =
      (List.range pool.pages).map fun i => ⟨b, i⟩ := by
    simp only [addPages, Function.update_self, hempty, linkPages_eq, List.append_nil]
  have hslot : ∀ i, (pool.addPages b pool.pages).queue (.slot i) = pool.queue (.slot i) :=
    fun i => by simp [addPages]
  have hnot : ∀ q (r : PageRef), r.cluster = b → r ∉ pool.queue q := fun q r heq hr =>
    hb (heq ▸ ((h.queue q r).mp hr).1.mem)
  refine ⟨rfl, rfl, rfl, fun r hr => if_neg hr, fun _ n hn => ?_, fun q => ?_, fun q r => ?_⟩
  · have hpages := hs.pages_le
    simp only [addPages, if_true]
    exact ⟨trivial, Nat.mod_eq_of_lt (by omega)⟩
  · cases q with
    | freePages =>
      rw [hfree]
      refine List.nodup_range.map fun i j heq => ?_
      exact congrArg PageRef.number heq
    | slot i => exact hslot i ▸ h.nodup _
  · cases q with
    | freePages =>
      rw [hfree, hempty]
      obtain ⟨cluster, n⟩ := r
      by_cases heq : cluster = b
      · simp [heq, htype]
      · simp [heq, Ne.symm heq]
    | slot i =>
      rw [hslot]
      split
      · rename_i heq
        exact ⟨fun hr => absurd hr (hnot _ r heq), fun hr => nomatch hr.1⟩
      · rfl

/-- A new cluster. -/
theorem allocCluster_spec (h : Inv pool nodes) (hs : pool.Paged) (hsys : sys.Lawful pool.memory)
    (hempty : pool.queue .freePages = []) :
    Unless (pool.clusterSize = 0) .fault (pool.allocCluster sys) fun r =>
      r = (none, pool) ∨ ∃ b base nodes', r = (some b, base) ∧ Shape base nodes' ∧
        (∀ a ∈ nodes', a.type = .cluster → a ≠ b → base.Occupied a) ∧
        (base.queue .freePages).head? = some ⟨b, 0⟩ ∧
        base.toSettings = pool.toSettings ∧
        ∀ p n, base.Holding nodes' p n ↔ pool.Holding nodes p n := by
  have hcount : pool.pageCount = .ok pool.pages := if_pos hs.page_lt
  rw [allocCluster, hcount]
  change Unless _ _ (if _ then _ else _) _
  split
  · exact Unless.ok (Or.inl rfl)
  · cases hstart : sys.memalign pool.pageAlignment pool.clusterSize with
    | none => exact Unless.ok (Or.inl rfl)
    | some start =>
      change Unless _ _ (if _ then _ else _) _
      by_cases hpages : pool.pages = 0
      · rw [if_pos hpages]
        refine Unless.error ?_
        rw [hs.clusterSize, hpages, Nat.zero_mul]
      · rw [if_neg hpages]
        let b : Block := ⟨.cluster, pool.clusterSize, start⟩
        have hf : Fresh pool.memory b.start b.length := hsys.fresh _ _ _ hstart
        have hb := h.toShape.not_mem_fresh hf
        have he := h.extends_addPages hs hempty rfl hb
        obtain ⟨base, nodes', hrun, hi, hpage, hqueue⟩ := h.toShape.insertBlock hf he fun _ =>
          ⟨hs, rfl, hsys.aligned _ _ _ hstart⟩
        have hinsert : (pool.addPages b pool.pages).insertBlock b pool.clusterSize = .ok base :=
          hrun
        change Unless _ _ ((pool.addPages b pool.pages).insertBlock b pool.clusterSize >>= _) _
        rw [hinsert]
        refine Unless.ok (Or.inr ⟨b, base, nodes', rfl, hi.shape, fun a ha htype hne => ?_,
          ?_, hi.settings, fun p n => ?_⟩)
        · obtain ⟨n, hn, hsize⟩ := h.occupied a (((hi.mem a).mp ha).resolve_left hne) htype
          refine ⟨n, hi.settings ▸ hn, ?_⟩
          rwa [hpage, he.page ⟨a, n⟩ hne]
        · rw [hqueue]
          simp only [addPages, Function.update_self, linkPages_eq, List.head?_append,
            List.head?_map, List.head?_range, if_neg hpages]
          rfl
        · rw [hi.holding he hpage hb]
          exact or_iff_left fun hlarge => hlarge.1 rfl

theorem Shape.taken {base : Pool} {nodes' : List Block} {first : PageRef}
    (h : Shape base nodes') (hfirst : first ∈ base.queue .freePages)
    (hothers : ∀ a ∈ nodes', a.type = .cluster → a ≠ first.cluster → base.Occupied a)
    (hsettings : base.toSettings = pool.toSettings)
    (hholding : ∀ p n, base.Holding nodes' p n ↔ pool.Holding nodes p n) :
    Taken pool base { base with queue := fun q => (base.queue q).erase first } nodes nodes'
      first := by
  obtain ⟨hpage, hshelf⟩ := (h.queue _ _).mp hfirst
  refine ⟨h, hothers, hpage, ?_, hsettings, rfl, hholding⟩
  rcases (h.page _ hpage).of_shelf hshelf with ⟨-, hfree⟩ | ⟨i, heq, -⟩
  · exact hfree
  · cases heq

/-- A request needs a fresh page, which there is not, or which is too far. -/
def NoFresh (pool : Pool) : Prop :=
  pool.clusterSize = 0 ∨
    ∃ ref, (pool.queue .freePages).head? = some ref ∧ Far pool.toSettings ref

theorem allocPage_spec (h : Inv pool nodes) (hs : pool.Paged) (hsys : sys.Lawful pool.memory) :
    Unless pool.NoFresh .fault (pool.allocPage sys) fun r =>
      r = (none, pool) ∨ ∃ ref base pool' nodes', r = (some ref, pool') ∧
        Taken pool base pool' nodes nodes' ref ∧ (Far pool.toSettings ref → pool.NoFresh) := by
  rw [allocPage]
  by_cases hempty : pool.queue .freePages = []
  · rw [if_pos hempty]
    have hspec := allocCluster_spec h hs hsys hempty
    refine (hspec.weaken Or.inl).bind fun r hr => ?_
    rcases hr with rfl | ⟨b, base, nodes', rfl, hshape, hothers, hhead, hsettings, hholding⟩
    · exact Unless.ok (Or.inl rfl)
    · have hfirst : ⟨b, 0⟩ ∈ base.queue .freePages := List.mem_of_mem_head? hhead
      obtain ⟨first, hfirst', hrun⟩ := takePage_spec (List.ne_nil_of_mem hfirst)
      obtain rfl := Option.some.inj (hhead.symm.trans hfirst')
      refine Unless.of_ok hrun (Or.inr ⟨_, base, _, nodes', rfl, ?_, fun hfar => ?_⟩)
      · exact hshape.taken hfirst hothers hsettings hholding
      · simp only [Far, Nat.zero_mul] at hfar
        omega
  · rw [if_neg hempty]
    obtain ⟨first, hfirst, hrun⟩ := takePage_spec hempty
    refine Unless.of_ok hrun (Or.inr ⟨first, pool, _, nodes, rfl, ?_, fun hfar =>
      Or.inr ⟨first, hfirst, hfar⟩⟩)
    exact h.toShape.taken (List.mem_of_mem_head? hfirst) (fun a ha htype _ =>
      h.occupied a ha htype) rfl fun _ _ => Iff.rfl

/-- What is done with a fresh page adds a piece at the start of it. -/
theorem Taken.granted {base : Pool} {nodes' : List Block} {m : Piece} {pool₁ : Pool}
    (ht : Taken pool base pool' nodes nodes' ref) (hm : Moved base pool₁ ref g)
    (hgood : g.Good base.toSettings ref.number) (hsize : g.size ≠ 0)
    (hheld : ∀ offset n, g.Holds base.toSettings offset n ↔ offset = 0 ∧ n = m) :
    Granted pool pool₁ nodes (base.pieceAddr ref 0) m := by
  have hnot : ∀ offset n, ¬(base.page ref).Holds base.toSettings offset n := fun _ _ =>
    Page.not_holds_free ht.free
  have hgranted := ht.shape.granted ht.others hm ht.page hgood hsize (hnot 0)
    (fun offset n => (hheld offset n).trans (or_iff_right (hnot offset n)).symm)
  obtain ⟨nodes₁, hinv, hiff⟩ := hgranted.inv
  refine ⟨fun n hn => hgranted.fresh n ((ht.holding _ _).mpr hn),
    hgranted.settings.trans ht.settings, nodes₁, hinv, fun q n => ?_⟩
  rw [hiff, ht.holding]

theorem Moved.pageAddr {pool₁ : Pool} (hm : Moved pool pool₁ ref g) (hs : pool.Paged)
    (hnumber : g.number = ref.number) :
    Unless (Far pool.toSettings ref) .fault (pool₁.pageAddr ref) fun p =>
      p = pool.pieceAddr ref 0 := by
  have hpage : (pool₁.page ref).number = ref.number := by
    rw [hm.page, Function.update_self]
    exact hnumber
  have haddr := pageAddr_spec (hm.settings ▸ hs) hpage
  rwa [pieceAddr, hm.settings] at haddr

theorem dividePage_spec {base : Pool} {nodes' : List Block} {i : ℕ}
    (ht : Taken pool base pool' nodes nodes' ref) (hi : i < pool.depth) :
    Unless (Far pool.toSettings ref) .fault (pool'.dividePage i (pool.slotAt i) ref) fun r =>
      ∃ p, r.1 = some p ∧ Granted pool r.2 nodes p ⟨.chunk, pool.chunkSize i⟩ := by
  have hs := ht.shape.paged ht.page
  have hnumber := (ht.shape.page ref ht.page).number
  rw [← ht.settings] at hi ⊢
  have hfirst := @Page.chunked_first _ _ hs hi ((base.page ref).number)
  have hcount : (base.slotAt i).chunks ≠ 0 := by
    have := Settings.two_le_chunkCount hi
    change base.chunkCount i - 1 ≠ 0
    omega
  have htaken := ht.taken
  subst htaken
  have hm := @Shape.moved_over _ _ _ _ ({ base with queue := fun q => (base.queue q).erase ref }) _
    ht.shape (hfirst.shelf.trans (if_neg hcount)) rfl rfl rfl rfl rfl
  have haddr := hm.pageAddr hs hnumber
  rw [dividePage]
  refine haddr.bind fun p hp => Unless.ok ⟨p, rfl, ?_⟩
  rw [hp]
  refine ht.granted hm ⟨hnumber, Or.inr (Or.inr ⟨i, hfirst⟩)⟩ hfirst.size_ne_zero
    fun offset n => ?_
  rw [hfirst.holds_iff]
  constructor
  · rintro ⟨rfl, c, hc, rfl⟩
    have hzero : c = 0 := of_decide_eq_true hc
    exact ⟨by rw [hzero, Nat.zero_mul], rfl⟩
  · rintro ⟨rfl, rfl⟩
    exact ⟨rfl, 0, rfl, (Nat.zero_mul _).symm⟩

theorem wholePage_spec {base : Pool} {nodes' : List Block}
    (ht : Taken pool base pool' nodes nodes' ref) :
    Unless (Far pool.toSettings ref) .fault (pool'.wholePage ref) fun r =>
      ∃ p, r.1 = some p ∧ Granted pool r.2 nodes p ⟨.page, pool.pageSize⟩ := by
  have hs := ht.shape.paged ht.page
  have hnumber := (ht.shape.page ref ht.page).number
  rw [← ht.settings]
  have hsize := Page.size_whole hs
  have htaken := ht.taken
  subst htaken
  have hm := @Shape.moved_out _ _ ref
    ({ base.page ref with size := base.pageSize >>> base.chunkSizeShift % 2 ^ 8 }) ht.shape
    (Page.shelf_whole hsize)
  have haddr := hm.pageAddr hs hnumber
  have hpos : 0 < 2 ^ base.depth := Nat.two_pow_pos _
  rw [wholePage]
  refine haddr.bind fun p hp => Unless.ok ⟨p, rfl, ?_⟩
  rw [hp]
  refine ht.granted hm ⟨hnumber, Or.inr (Or.inl hsize)⟩ ?_ fun offset n => Page.holds_whole hsize
  change base.pageSize >>> base.chunkSizeShift % 2 ^ 8 ≠ 0
  omega

theorem withPage_spec {use : Pool → PageRef → Result (Option ℕ × Pool)} {m : Piece}
    (h : Inv pool nodes) (hs : pool.Paged) (hsys : sys.Lawful pool.memory)
    (huse : ∀ ref base pool' nodes', Taken pool base pool' nodes nodes' ref →
      Unless (Far pool.toSettings ref) .fault (use pool' ref) fun r =>
        ∃ p, r.1 = some p ∧ Granted pool r.2 nodes p m) :
    Unless pool.NoFresh .fault (pool.withPage sys use) fun r =>
      r = (none, pool) ∨ ∃ p, r.1 = some p ∧ Granted pool r.2 nodes p m := by
  refine (allocPage_spec h hs hsys).bind fun r hr => ?_
  rcases hr with rfl | ⟨ref, base, pool', nodes', rfl, ht, hfar⟩
  · exact Unless.ok (Or.inl rfl)
  · exact ((huse ref base pool' nodes' ht).weaken hfar).mono fun r => Or.inr

/-! ## Requests -/

/-- A request for memory: `njs_mp_alloc` asks for no alignment. -/
structure Request where
  alignment : ℕ
  size : ℕ
  deriving DecidableEq

namespace Request

variable (s : Settings) (q : Request)

/-- The request is served from the pages of clusters. -/
def Small : Prop :=
  q.size ≤ s.pageSize ∧ q.alignment ≤ s.pageAlignment ∧ max q.size q.alignment ≤ s.pageSize

/-- The request takes a chunk. -/
def Chunk : Prop := q.Small s ∧ max q.size q.alignment ≤ s.pageSize / 2

/-- The request takes a whole page. -/
def Whole : Prop := q.Small s ∧ s.pageSize / 2 < max q.size q.alignment

/-- The request is for a block of its own, without any bytes. -/
def Empty : Prop := q.size = 0 ∧ s.pageAlignment < q.alignment

instance : Decidable (q.Empty s) := inferInstanceAs (Decidable (_ ∧ _))

/-- The piece is what the request is to get. -/
structure Fits (n : Piece) : Prop where
  size : q.size ≤ n.size
  whole : n.kind = .page ↔ q.Whole s
  empty : n.size = 0 ↔ q.Empty s

end Request

/-- What an allocation does: it is refused, and the pool is as before, or adds a piece that fits
the request. -/
def Serves (pool : Pool) (nodes : List Block) (q : Request) (r : Option ℕ × Pool) : Prop :=
  r = (none, pool) ∨ ∃ p n, r.1 = some p ∧ Granted pool r.2 nodes p n ∧
    q.Fits pool.toSettings n ∧ (q.alignment = 0 ∨ q.alignment ∣ p)

/-- The request takes a page that there is not, or that is too far: the first page of its slot,
or else a fresh page. -/
def Risky (pool : Pool) (size : ℕ) : Prop :=
  if size ≤ pool.pageSize / 2 then
    ∀ index slot, findSlot size pool.slots 0 = .ok (index, slot) →
      match pool.queue (.slot index) with
      | ref :: _ => Far pool.toSettings ref
      | [] => pool.NoFresh
  else pool.NoFresh

theorem allocSmall_spec {size : ℕ} (h : Inv pool nodes) (hs : pool.Paged)
    (hsys : sys.Lawful pool.memory) (hsize : size ≤ pool.pageSize)
    (hchunk : size ≤ pool.pageSize / 2 → 0 < pool.depth) :
    Unless (pool.Risky size) .fault (pool.allocSmall sys size) fun r =>
      r = (none, pool) ∨ ∃ p n, r.1 = some p ∧ Granted pool r.2 nodes p n ∧
        n.kind ≠ .block ∧ size ≤ n.size ∧ 0 < n.size ∧
          (n.kind = .page ↔ pool.pageSize / 2 < size) := by
  rw [allocSmall]
  by_cases hhalf : size ≤ pool.pageSize / 2
  · obtain ⟨i, hi, hslot, hfits⟩ := hs.findSlot (hchunk hhalf) hhalf
    have hgranted : ∀ r : Option ℕ × Pool,
        (∃ p, r.1 = some p ∧ Granted pool r.2 nodes p ⟨.chunk, pool.chunkSize i⟩) →
        ∃ p n, r.1 = some p ∧ Granted pool r.2 nodes p n ∧ n.kind ≠ .block ∧ size ≤ n.size ∧
          0 < n.size ∧ (n.kind = .page ↔ pool.pageSize / 2 < size) := by
      rintro r ⟨p, hp, hg⟩
      exact ⟨p, _, hp, hg, (nomatch ·), hfits, Settings.chunkSize_pos, (nomatch ·),
        fun hlt => by omega⟩
    rw [if_pos hhalf, hslot]
    change Unless _ _ (match pool.queue (.slot i) with
      | ref :: _ => allocFromPage pool (pool.slotAt i) ref
      | [] => withPage sys pool fun pool' ref => dividePage pool' i (pool.slotAt i) ref) _
    cases hqueue : pool.queue (.slot i) with
    | cons ref rest =>
      have href : ref ∈ pool.queue (.slot i) := hqueue ▸ List.mem_cons_self ..
      refine ((allocFromPage_spec h href).weaken fun hfar => ?_).mono
        fun r hr => Or.inr (hgranted r hr)
      rw [Risky, if_pos hhalf, hslot]
      rintro _ _ ⟨⟩
      rwa [hqueue]
    | nil =>
      have hspec := withPage_spec h hs hsys fun ref base pool' nodes' ht => dividePage_spec ht hi
      refine (hspec.weaken fun hno => ?_).mono fun r hr => hr.imp_right (hgranted r)
      rw [Risky, if_pos hhalf, hslot]
      rintro _ _ ⟨⟩
      rwa [hqueue]
  · have hspec := withPage_spec h hs hsys fun ref base pool' nodes' ht => wholePage_spec ht
    rw [if_neg hhalf, Risky, if_neg hhalf]
    refine hspec.mono fun r hr => hr.imp_right ?_
    rintro ⟨p, hp, hg⟩
    refine ⟨p, _, hp, hg, (nomatch ·), hsize, ?_, fun _ => by omega,
      fun _ => rfl⟩
    change 0 < pool.pageSize
    rw [hs.pageSize]
    exact Nat.two_pow_pos _

/-- Without pages, no request is small. -/
theorem allocSmall_zero {P : Option ℕ × Pool → Prop} (h : Inv pool nodes)
    (hsize : pool.pageSize = 0) (hshift : 32 ≤ pool.pageSizeShift)
    (hcluster : pool.clusterSize = 0) :
    Unless (pool.Risky 0) .fault (pool.allocSmall sys 0) P := by
  have hempty : ∀ q, pool.queue q = [] := fun q => by
    refine List.eq_nil_iff_forall_not_mem.mpr fun r hr => ?_
    have hs := h.paged ((h.queue q r).mp hr).1
    have hpos := Nat.two_pow_pos pool.pageSizeShift
    rw [← hs.pageSize, hsize] at hpos
    omega
  have hpage : pool.allocPage sys = .error .fault := by
    rw [allocPage, if_pos (hempty _), allocCluster, pageCount, if_neg (by omega)]
    rfl
  have hrisky : pool.Risky 0 := by
    rw [Risky, if_pos (Nat.zero_le _)]
    intro index slot _
    rw [hempty]
    exact Or.inl hcluster
  refine Or.inr ⟨hrisky, ?_⟩
  rw [allocSmall, if_pos (Nat.zero_le _)]
  cases pool.slots with
  | nil => rfl
  | cons slot slots =>
    change (match pool.queue (.slot 0) with
      | ref :: _ => allocFromPage pool slot ref
      | [] => withPage sys pool fun pool ref => dividePage pool 0 slot ref) = _
    rw [hempty]
    change (pool.allocPage sys >>= _) = _
    rw [hpage]
    rfl

theorem allocLarge_spec {hazard : Prop} {alignment size : ℕ} (h : Inv pool nodes)
    (hsys : sys.Lawful pool.memory) :
    Unless hazard .fault (pool.allocLarge sys alignment size) fun r =>
      r = (none, pool) ∨ ∃ p, r.1 = some p ∧ Granted pool r.2 nodes p ⟨.block, size⟩ ∧
        alignment ∣ p := by
  have hinsert : ∀ (b : Block), b.type ≠ .cluster → Fresh pool.memory b.start b.length →
      ∃ pool', pool.insertBlock b b.length = .ok pool' ∧
        Granted pool pool' nodes b.start ⟨.block, b.size⟩ := by
    intro b htype hf
    have he := h.toShape.extends hf htype
    have hb := h.toShape.not_mem_fresh hf
    have hapart := h.toShape.apart_fresh hf
    obtain ⟨pool', nodes', hrun, hi, hpage, -⟩ := h.toShape.insertBlock hf he
      fun heq => absurd heq htype
    refine ⟨pool', hrun, ?_, hi.settings, nodes', ⟨hi.shape, fun a ha hatype => ?_⟩,
      fun q n => ?_⟩
    · rintro n (⟨a, ha, -, heq, -⟩ | ⟨ref, href, hp⟩)
      · exact (hapart a ha).start_ne heq.symm
      · exact (hapart _ href.mem).symm.not_contains (h.within_number href hp).1
    · have hne : a ≠ b := fun heq => htype (heq ▸ hatype)
      have hocc := h.occupied a (((hi.mem a).mp ha).resolve_left hne) hatype
      rwa [Occupied, hi.settings, hpage]
    · rw [hi.holding he hpage hb]
      exact or_congr_right (and_iff_right htype)
  rw [allocLarge]
  split
  · exact Unless.ok (Or.inl rfl)
  · split
    · split
      · exact Unless.ok (Or.inl rfl)
      · cases hstart : sys.memalign alignment size with
        | none => exact Unless.ok (Or.inl rfl)
        | some p =>
          obtain ⟨pool', hrun, hg⟩ := hinsert ⟨.discrete, size, p⟩ (by rintro ⟨⟩)
            (hsys.fresh _ _ _ hstart)
          have hrun' : pool.insertBlock ⟨.discrete, size, p⟩ size = .ok pool' := hrun
          change Unless _ _ (pool.insertBlock ⟨.discrete, size, p⟩ size >>= _) _
          rw [hrun']
          exact Unless.ok (Or.inr ⟨p, rfl, hg, hsys.aligned _ _ _ hstart⟩)
    · cases hstart : sys.memalign alignment (alignSize size + sizeofBlock) with
      | none => exact Unless.ok (Or.inl rfl)
      | some p =>
        obtain ⟨pool', hrun, hg⟩ := hinsert ⟨.embedded, size, p⟩ (by rintro ⟨⟩)
          (hsys.fresh _ _ _ hstart)
        have hrun' : pool.insertBlock ⟨.embedded, size, p⟩ (alignSize size + sizeofBlock) =
          .ok pool' := hrun
        change Unless _ _ (pool.insertBlock ⟨.embedded, size, p⟩ (alignSize size + sizeofBlock)
          >>= _) _
        rw [hrun']
        exact Unless.ok (Or.inr ⟨p, rfl, hg, hsys.aligned _ _ _ hstart⟩)

/-- The alignment of what is taken from a page. -/
theorem Shape.dvd {p e : ℕ} {n : Piece} (h : Shape pool nodes) (hheld : pool.Holding nodes p n)
    (hkind : n.kind ≠ .block) (he : 2 ^ e ≤ pool.pageAlignment) (hn : 2 ^ e ≤ n.size) :
    2 ^ e ∣ p := by
  rcases hheld with ⟨b, -, -, -, rfl⟩ | ⟨ref, href, offset, hpiece, rfl⟩
  · exact absurd rfl hkind
  · obtain ⟨hs, -, hstart⟩ := h.cluster _ href.mem href.type
    obtain ⟨a, ha, halign⟩ := hs.alignment
    rw [halign] at he hstart
    have hea : e ≤ a := (Nat.pow_le_pow_iff_right (by decide)).mp he
    have hcluster : 2 ^ e ∣ ref.cluster.start := Nat.dvd_trans (Nat.pow_dvd_pow 2 hea) hstart
    have hpage : 2 ^ e ∣ ref.number * 2 ^ pool.pageSizeShift :=
      Nat.dvd_mul_left_of_dvd (Nat.pow_dvd_pow 2 (Nat.le_trans hea ha)) _
    have hoffset : 2 ^ e ∣ offset := by
      rcases hpiece with ⟨-, rfl, -⟩ | ⟨i, -, -, rfl, c, -, rfl⟩
      · exact Nat.dvd_zero _
      · have hei := (Nat.pow_le_pow_iff_right (by decide)).mp hn
        exact Nat.dvd_mul_left_of_dvd (Nat.pow_dvd_pow 2 hei) _
    exact Nat.dvd_add (Nat.dvd_add hcluster hpage) hoffset

theorem eq_two_pow {n : ℕ} (hn : n ≠ 0) (hpow : isPowerOfTwo n) : ∃ e, n = 2 ^ e := by
  have hand : n &&& (n - 1) = 0 := (Nat.and_comm ..).trans hpow
  exact Nat.ne_zero_and_sub_one_eq_zero_iff_isPowerOfTwo.mp ⟨hn, hand⟩

/-- What is taken from pages serves the request. -/
theorem serves_small {q : Request} {r : Option ℕ × Pool}
    (hpow : q.alignment = 0 ∨ ∃ e, q.alignment = 2 ^ e) (hsmall : q.Small pool.toSettings)
    {size : ℕ} (hsize : q.size ≤ size) (hle : q.alignment ≤ size ∨ q.alignment = 1)
    (hwhole : pool.pageSize / 2 < size ↔ pool.pageSize / 2 < max q.size q.alignment)
    (hr : r = (none, pool) ∨ ∃ p n, r.1 = some p ∧ Granted pool r.2 nodes p n ∧
      n.kind ≠ .block ∧ size ≤ n.size ∧ 0 < n.size ∧
        (n.kind = .page ↔ pool.pageSize / 2 < size)) : Serves pool nodes q r := by
  refine hr.imp_right ?_
  rintro ⟨p, n, hp, hg, hkind, hn, hpos, hpage⟩
  obtain ⟨nodes', hinv, hiff⟩ := hg.inv
  refine ⟨p, n, hp, hg, ⟨Nat.le_trans hsize hn, ?_, ?_⟩, ?_⟩
  · rw [hpage, hwhole]
    exact (and_iff_right hsmall).symm
  · have hnot : ¬q.Empty pool.toSettings := fun he => Nat.not_le.mpr he.2 hsmall.2.1
    exact ⟨fun hzero => by omega, fun he => absurd he hnot⟩
  · refine hpow.imp_right ?_
    rintro ⟨e, he⟩
    have hheld : r.2.Holding nodes' p n := (hiff p n).mpr (Or.inr ⟨rfl, rfl⟩)
    have halign : 2 ^ e ≤ r.2.pageAlignment := by
      rw [hg.settings, ← he]
      exact hsmall.2.1
    rw [he] at hle ⊢
    exact hinv.toShape.dvd hheld hkind halign (by omega)

/-- What is a block of its own serves the request. -/
theorem serves_large {q : Request} {r : Option ℕ × Pool} (hsmall : ¬q.Small pool.toSettings)
    {size : ℕ} (hsize : q.size ≤ size) (hempty : size = 0 ↔ q.Empty pool.toSettings)
    {alignment : ℕ} (halign : q.alignment ∣ alignment)
    (hr : r = (none, pool) ∨ ∃ p, r.1 = some p ∧ Granted pool r.2 nodes p ⟨.block, size⟩ ∧
      alignment ∣ p) : Serves pool nodes q r := by
  refine hr.imp_right ?_
  rintro ⟨p, hp, hg, hdvd⟩
  exact ⟨p, _, hp, hg, ⟨hsize, ⟨(nomatch ·), fun hw => absurd hw.1 hsmall⟩, hempty⟩,
    Or.inr (Nat.dvd_trans halign hdvd)⟩

/-- The specification of `njs_mp_alloc`. -/
theorem alloc_spec {size : ℕ} (h : Inv pool nodes) (hsys : sys.Lawful pool.memory)
    (hchunk : Request.Chunk pool.toSettings ⟨1, size⟩ → 0 < pool.depth) :
    Unless (size ≤ pool.pageSize ∧ pool.Risky size) .fault (pool.alloc sys size)
      (Serves pool nodes ⟨1, size⟩) := by
  rw [alloc]
  by_cases hsize : size ≤ pool.pageSize
  · rw [if_pos hsize]
    rcases h.valid with hs | ⟨hzero, hshift, hcluster⟩
    · have hpage := hs.pageSize
      have hpow := Nat.one_lt_two_pow (Nat.ne_of_gt hs.page_pos)
      obtain ⟨a, -, ha⟩ := hs.alignment
      have hone : 1 ≤ pool.pageAlignment := ha ▸ Nat.two_pow_pos a
      have hsmall : Request.Small pool.toSettings ⟨1, size⟩ := by
        refine ⟨hsize, hone, ?_⟩
        change max size 1 ≤ _
        omega
      have hchunk' : size ≤ pool.pageSize / 2 → 0 < pool.depth := fun hhalf => by
        refine hchunk ⟨hsmall, ?_⟩
        change max size 1 ≤ _
        omega
      refine ((allocSmall_spec h hs hsys hsize hchunk').weaken (And.intro hsize)).mono fun r hr =>
        serves_small (Or.inr ⟨0, rfl⟩) hsmall (Nat.le_refl _) (Or.inr rfl) ?_ hr
      · change pool.pageSize / 2 < size ↔ pool.pageSize / 2 < max size 1
        omega
    · obtain rfl : size = 0 := by omega
      exact (allocSmall_zero h hzero hshift hcluster).weaken (And.intro hsize)
  · rw [if_neg hsize]
    refine (allocLarge_spec h hsys).mono fun r hr =>
      serves_large (fun hs => hsize hs.1) (Nat.le_refl _) ⟨fun hz => ?_, And.left⟩
        (Nat.one_dvd _) hr
    have hpos : size ≠ 0 := by omega
    exact absurd hz hpos

/-- The specification of `njs_mp_align`. -/
theorem align_spec {alignment size : ℕ} (h : Inv pool nodes) (hsys : sys.Lawful pool.memory)
    (hchunk : Request.Chunk pool.toSettings ⟨alignment, size⟩ → 0 < pool.depth) :
    Unless (Request.Small pool.toSettings ⟨alignment, size⟩ ∧
        pool.Risky (max size alignment)) .fault
      (pool.align sys alignment size)
      (Serves pool nodes ⟨alignment, size⟩) := by
  rw [align]
  by_cases hpow : isPowerOfTwo alignment
  · have hpow' : alignment = 0 ∨ ∃ e, alignment = 2 ^ e :=
      (Nat.eq_zero_or_pos alignment).imp_right fun hpos => eq_two_pow (by omega) hpow
    rw [if_pos hpow]
    by_cases hpage : size ≤ pool.pageSize ∧ alignment ≤ pool.pageAlignment
    · rw [if_pos hpage]
      by_cases hmax : max size alignment ≤ pool.pageSize
      · have hsmall : Request.Small pool.toSettings ⟨alignment, size⟩ := ⟨hpage.1, hpage.2, hmax⟩
        rw [if_pos hmax]
        rcases h.valid with hs | ⟨hzero, hshift, hcluster⟩
        · have hspec := allocSmall_spec h hs hsys hmax fun hhalf => hchunk ⟨hsmall, hhalf⟩
          refine (hspec.weaken (And.intro hsmall)).mono fun r hr =>
            serves_small hpow' hsmall (Nat.le_max_left ..) (Or.inl (Nat.le_max_right ..)) Iff.rfl hr
        · have hboth : max size alignment = 0 := by omega
          rw [hboth]
          exact (allocSmall_zero h hzero hshift hcluster).weaken (And.intro hsmall)
      · rw [if_neg hmax]
        refine (allocLarge_spec h hsys).mono fun r hr =>
          serves_large (fun hs => hmax hs.2.2) (Nat.le_max_left ..) ⟨fun hz => ?_, fun he => ?_⟩
            (Nat.dvd_refl _) hr
        · exact absurd hz (by omega)
        · exact absurd hpage.2 (Nat.not_le.mpr he.2)
    · rw [if_neg hpage]
      refine (allocLarge_spec h hsys).mono fun r hr =>
        serves_large (fun hs => hpage ⟨hs.1, hs.2.1⟩) (Nat.le_refl _) ⟨fun hz => ⟨hz, ?_⟩, And.left⟩
          (Nat.dvd_refl _) hr
      simp only at hz ⊢
      omega
  · rw [if_neg hpow]
    exact Unless.ok (Or.inl rfl)

end Pool

end Njs.Mp
