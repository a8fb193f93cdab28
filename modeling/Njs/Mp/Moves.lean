import Njs.Mp.Invariant

/-!
# Changes of a pool

A page that changes moves to the queue that goes with its new state. A block enters the tree
with the memory that the system gives for it, and leaves the tree when this memory is freed.
-/

namespace Njs.Mp

namespace Pool

open Njs.Rbtree

variable {pool pool' : Pool} {nodes : List Block} {ref : PageRef} {g : Page}

/-! ## Pages -/

/-- The pool after a page has changed and moved. -/
structure Moved (pool pool' : Pool) (ref : PageRef) (g : Page) : Prop where
  settings : pool'.toSettings = pool.toSettings
  blocks : pool'.blocks = pool.blocks
  memory : pool'.memory = pool.memory
  page : pool'.page = Function.update pool.page ref g
  nodup : ∀ q, (pool'.queue q).Nodup
  queue : ∀ q r, r ∈ pool'.queue q ↔
    if r = ref then g.shelf pool.toSettings = some q else r ∈ pool.queue q

theorem Shape.moved (h : Shape pool nodes) (hm : Moved pool pool' ref g)
    (href : pool.HasPage nodes ref) (hgood : g.Good pool.toSettings ref.number) :
    Shape pool' nodes := by
  have hpage : ∀ r, pool'.page r = if r = ref then g else pool.page r := fun r => by
    rw [hm.page, Function.update_apply]
  refine ⟨hm.settings ▸ h.valid, hm.blocks ▸ h.tree, hm.memory ▸ h.memory, h.apart,
    hm.settings ▸ h.cluster, fun r hr => ?_, hm.nodup, fun q r => ?_⟩
  · rw [hpage, hm.settings]
    split
    · rename_i heq
      exact heq ▸ hgood
    · exact h.page r (hm.settings ▸ hr)
  · rw [hm.queue, hpage, hm.settings]
    split
    · rename_i heq
      exact ⟨fun hq => ⟨heq ▸ href, hq⟩, And.right⟩
    · exact h.queue q r

/-- The page stays in the queue in which it is, or out of the queues. -/
theorem Shape.moved_stay (h : Shape pool nodes) (href : pool.HasPage nodes ref)
    (hshelf : g.shelf pool.toSettings = (pool.page ref).shelf pool.toSettings) :
    Moved pool (pool.setPage ref g) ref g := by
  refine ⟨rfl, rfl, rfl, rfl, h.nodup, fun q r => ?_⟩
  split
  · rename_i heq
    rw [heq, hshelf]
    exact (h.queue q ref).trans (and_iff_right href)
  · rfl

/-- The page was in no queue. -/
theorem Shape.moved_head {q₀ : Queue} (h : Shape pool nodes)
    (hnone : (pool.page ref).shelf pool.toSettings = none)
    (hshelf : g.shelf pool.toSettings = some q₀) :
    Moved pool ((pool.setPage ref g).insertHead q₀ ref) ref g := by
  have hnot : ∀ q, ref ∉ pool.queue q := fun q hr => by
    rw [h.queue, hnone] at hr
    cases hr.2
  refine ⟨rfl, rfl, rfl, rfl, fun q => ?_, fun q r => ?_⟩ <;>
    simp only [insertHead, setPage, Function.update_apply]
  · split
    · exact List.nodup_cons.mpr ⟨hnot _, h.nodup _⟩
    · exact h.nodup q
  · rw [hshelf]
    by_cases hq : q = q₀
    · subst hq
      by_cases hr : r = ref <;> simp [hr]
    · by_cases hr : r = ref <;> simp [hq, hr, hnot, Ne.symm hq]

/-- The page is taken out of its queue. -/
theorem Shape.moved_out (h : Shape pool nodes) (hshelf : g.shelf pool.toSettings = none) :
    Moved pool { pool.setPage ref g with queue := fun q => (pool.queue q).erase ref } ref g := by
  refine ⟨rfl, rfl, rfl, rfl, fun q => (h.nodup q).erase _, fun q r => ?_⟩
  rw [hshelf]
  by_cases hr : r = ref <;> simp [hr, (h.nodup q).mem_erase_iff]

/-- The page is taken out of its queue, and then put to the head of another one. -/
theorem Shape.moved_over {pool₁ : Pool} {q₀ : Queue} (h : Shape pool nodes)
    (hshelf : g.shelf pool.toSettings = some q₀)
    (hsettings : pool₁.toSettings = pool.toSettings) (hblocks : pool₁.blocks = pool.blocks)
    (hmemory : pool₁.memory = pool.memory)
    (hpage : Function.update pool₁.page ref g = Function.update pool.page ref g)
    (hqueue : pool₁.queue = fun q => (pool.queue q).erase ref) :
    Moved pool ((pool₁.setPage ref g).insertHead q₀ ref) ref g := by
  have hnot : ∀ q, ref ∉ (pool.queue q).erase ref := fun q hr =>
    ((h.nodup q).mem_erase_iff.mp hr).1 rfl
  refine ⟨hsettings, hblocks, hmemory, hpage, fun q => ?_, fun q r => ?_⟩ <;>
    simp only [insertHead, setPage, Function.update_apply, hqueue]
  · split
    · exact List.nodup_cons.mpr ⟨hnot _, (h.nodup _).erase _⟩
    · exact (h.nodup q).erase _
  · rw [hshelf]
    by_cases hq : q = q₀
    · subst hq
      by_cases hr : r = ref <;> simp [hr, (h.nodup q).mem_erase_iff]
    · by_cases hr : r = ref <;> simp [hq, hr, (h.nodup q).mem_erase_iff, Ne.symm hq]

/-- The page that moved is in use, so that its cluster is occupied. -/
theorem Shape.moved_inv (h : Shape pool nodes)
    (hothers : ∀ a ∈ nodes, a.type = .cluster → a ≠ ref.cluster → pool.Occupied a)
    (hm : Moved pool pool' ref g) (href : pool.HasPage nodes ref)
    (hgood : g.Good pool.toSettings ref.number) (hsize : g.size ≠ 0) : Inv pool' nodes := by
  refine ⟨h.moved hm href hgood, fun b hb htype => ?_⟩
  by_cases hb' : b = ref.cluster
  · refine ⟨ref.number, hm.settings ▸ href.lt, ?_⟩
    rw [hm.page, hb', Function.update_self]
    exact hsize
  · obtain ⟨n, hn, hused⟩ := hothers b hb htype hb'
    refine ⟨n, hm.settings ▸ hn, ?_⟩
    rw [hm.page, Function.update_of_ne fun heq => hb' (congrArg PageRef.cluster heq)]
    exact hused

/-- What a page holds after the change of another one, or of itself. -/
theorem Moved.within (hm : Moved pool pool' ref g) {r : PageRef} {p : ℕ} {n : Piece} :
    pool'.Within r p n ↔ if r = ref then
      ∃ offset, g.Holds pool.toSettings offset n ∧
        p = ref.cluster.start + ref.number * 2 ^ pool.pageSizeShift + offset
      else pool.Within r p n := by
  have hpage : pool'.page r = if r = ref then g else pool.page r := by
    rw [hm.page, Function.update_apply]
  rw [Within, hpage, hm.settings]
  split
  · rename_i heq
    rw [heq]
  · rfl

/-- An address in a cluster starts what it starts in its page. -/
theorem Shape.holding_iff (h : Shape pool nodes) (href : pool.HasPage nodes ref) {p : ℕ}
    (hc : ref.cluster.Contains p)
    (hnumber : ref.number = (p - ref.cluster.start) / 2 ^ pool.pageSizeShift) {n : Piece} :
    pool.Holding nodes p n ↔ pool.Within ref p n := by
  constructor
  · rintro (⟨b, hb, htype, rfl, rfl⟩ | ⟨r, hr, hp⟩)
    · have hne : b ≠ ref.cluster := fun heq => htype (heq ▸ href.type)
      exact absurd hc (h.apart b hb _ href.mem hne).not_contains
    · obtain ⟨hc', hnumber'⟩ := h.within_number hr hp
      have hcluster : r.cluster = ref.cluster := hc'.unique hc (h.apart _ hr.mem _ href.mem)
      have heq : r = ref := by
        cases r
        cases ref
        simp_all
      exact heq ▸ hp
  · exact fun hp => Or.inr ⟨ref, href, hp⟩

/-- A page gets one more piece in use. -/
theorem Shape.holding_add (hm : Moved pool pool' ref g)
    (href : pool.HasPage nodes ref) {o : ℕ} {m : Piece}
    (hadd : ∀ offset n, g.Holds pool.toSettings offset n ↔
      (pool.page ref).Holds pool.toSettings offset n ∨ offset = o ∧ n = m) {p : ℕ} {n : Piece} :
    pool'.Holding nodes p n ↔ pool.Holding nodes p n ∨
      p = ref.cluster.start + ref.number * 2 ^ pool.pageSizeShift + o ∧ n = m := by
  simp only [Holding, hm.settings, hm.within]
  constructor
  · rintro (hlarge | ⟨r, hr, hp⟩)
    · exact Or.inl (Or.inl hlarge)
    · split at hp
      · rename_i heq
        obtain ⟨offset, hheld, rfl⟩ := hp
        rcases (hadd offset n).mp hheld with hold | ⟨rfl, rfl⟩
        · exact Or.inl (Or.inr ⟨ref, href, offset, hold, rfl⟩)
        · exact Or.inr ⟨rfl, rfl⟩
      · exact Or.inl (Or.inr ⟨r, hr, hp⟩)
  · rintro ((hlarge | ⟨r, hr, hp⟩) | ⟨rfl, rfl⟩)
    · exact Or.inl hlarge
    · refine Or.inr ⟨r, hr, ?_⟩
      split
      · rename_i heq
        obtain ⟨offset, hheld, rfl⟩ := hp
        exact ⟨offset, (hadd offset n).mpr (Or.inl (heq ▸ hheld)), heq ▸ rfl⟩
      · exact hp
    · refine Or.inr ⟨ref, href, ?_⟩
      rw [if_pos rfl]
      exact ⟨o, (hadd o n).mpr (Or.inr ⟨rfl, rfl⟩), rfl⟩

/-- A page gets a piece less in use. -/
theorem Shape.holding_remove (h : Shape pool nodes) (hm : Moved pool pool' ref g)
    (href : pool.HasPage nodes ref) {o : ℕ} {m : Piece}
    (hheld : (pool.page ref).Holds pool.toSettings o m)
    (hremove : ∀ offset n, g.Holds pool.toSettings offset n ↔
      (pool.page ref).Holds pool.toSettings offset n ∧ offset ≠ o) {p : ℕ} {n : Piece} :
    pool'.Holding nodes p n ↔ pool.Holding nodes p n ∧
      p ≠ ref.cluster.start + ref.number * 2 ^ pool.pageSizeShift + o := by
  have hwithin : pool.Within ref (ref.cluster.start + ref.number * 2 ^ pool.pageSizeShift + o) m :=
    ⟨o, hheld, rfl⟩
  obtain ⟨hc, hnumber⟩ := h.within_number href hwithin
  constructor
  · rintro (⟨b, hb, htype, rfl, rfl⟩ | ⟨r, hr, hp⟩)
    · refine ⟨Or.inl ⟨b, hb, htype, rfl, rfl⟩, fun heq => ?_⟩
      have hne : b ≠ ref.cluster := fun heq => htype (heq ▸ href.type)
      exact (h.apart b hb _ href.mem hne).not_contains (heq ▸ hc)
    · rw [hm.settings] at hr
      rw [hm.within] at hp
      split at hp
      · obtain ⟨offset, hnew, rfl⟩ := hp
        obtain ⟨hold, hne⟩ := (hremove offset n).mp hnew
        exact ⟨Or.inr ⟨ref, href, offset, hold, rfl⟩, by omega⟩
      · rename_i hne
        refine ⟨Or.inr ⟨r, hr, hp⟩, ?_⟩
        rintro rfl
        exact hne (h.within_unique href hr hwithin hp)
  · rintro ⟨(⟨b, hb, htype, rfl, rfl⟩ | ⟨r, hr, hp⟩), hne⟩
    · exact Or.inl ⟨b, hb, htype, rfl, rfl⟩
    · refine Or.inr ⟨r, hm.settings ▸ hr, hm.within.mpr ?_⟩
      split
      · rename_i heq
        subst heq
        obtain ⟨offset, hold, rfl⟩ := hp
        exact ⟨offset, (hremove offset n).mpr ⟨hold, by omega⟩, rfl⟩
      · exact hp

end Pool

/-! ## Blocks -/

/-- Memory from the system is not at the address zero, and apart of the memory in use. Memory
of no length has an address of its own. -/
def Fresh (memory : List (ℕ × ℕ)) (start length : ℕ) : Prop :=
  0 < start ∧ ∀ piece ∈ memory,
    start + max 1 length ≤ piece.1 ∨ piece.1 + max 1 piece.2 ≤ start

/-- What the system promises for `njs_memalign`. -/
structure System.Lawful (sys : System) (memory : List (ℕ × ℕ)) : Prop where
  fresh : ∀ alignment size start, sys.memalign alignment size = some start →
    Fresh memory start size
  aligned : ∀ alignment size start, sys.memalign alignment size = some start → alignment ∣ start

namespace Pool

variable {b : Block}

theorem Shape.apart_fresh (h : Shape pool nodes) (hf : Fresh pool.memory b.start b.length) :
    ∀ a ∈ nodes, a.Apart b := by
  intro a ha
  have hmem : a.piece ∈ pool.memory := h.memory.mem_iff.mpr (List.mem_map_of_mem ha)
  exact (hf.2 _ hmem).symm

theorem Shape.not_mem_fresh (h : Shape pool nodes) (hf : Fresh pool.memory b.start b.length) :
    b ∉ nodes := by
  intro hb
  exact (h.apart_fresh hf b hb).start_ne rfl

/-- A pool to which a block is added: its page is free where the block is a cluster. -/
structure Extends (pool pool' : Pool) (b : Block) : Prop where
  settings : pool'.toSettings = pool.toSettings
  blocks : pool'.blocks = pool.blocks
  memory : pool'.memory = pool.memory
  page : ∀ r : PageRef, r.cluster ≠ b → pool'.page r = pool.page r
  fresh : b.type = .cluster → ∀ n < pool.pages,
    (pool'.page ⟨b, n⟩).size = 0 ∧ (pool'.page ⟨b, n⟩).number = n
  nodup : ∀ q, (pool'.queue q).Nodup
  queue : ∀ q (r : PageRef), r ∈ pool'.queue q ↔
    if r.cluster = b then q = .freePages ∧ b.type = .cluster ∧ r.number < pool.pages
    else r ∈ pool.queue q

/-- A block that is not a cluster has no pages. -/
theorem Shape.extends (h : Shape pool nodes) (hf : Fresh pool.memory b.start b.length)
    (htype : b.type ≠ .cluster) : Extends pool pool b := by
  refine ⟨rfl, rfl, rfl, fun _ _ => rfl, fun heq => absurd heq htype, h.nodup, fun q r => ?_⟩
  split
  · rename_i heq
    refine ⟨fun hr => ?_, fun hr => absurd hr.2.1 htype⟩
    exact absurd (heq ▸ ((h.queue q r).mp hr).1.mem) (h.not_mem_fresh hf)
  · rfl

/-- What an inserted block adds to the pool. -/
structure Inserted (pool pool' : Pool) (nodes nodes' : List Block) (b : Block) : Prop where
  shape : Shape pool' nodes'
  mem : ∀ a, a ∈ nodes' ↔ a = b ∨ a ∈ nodes
  settings : pool'.toSettings = pool.toSettings
  memory : pool'.memory = (b.start, b.length) :: pool.memory

theorem Shape.insertBlock {pool₁ : Pool} (h : Shape pool nodes)
    (hf : Fresh pool.memory b.start b.length) (he : Extends pool pool₁ b)
    (hcluster : b.type = .cluster →
      pool.Paged ∧ b.size = pool.clusterSize ∧ pool.pageAlignment ∣ b.start) :
    ∃ pool' nodes', pool₁.insertBlock b b.length = .ok pool' ∧
      Inserted pool pool' nodes nodes' b ∧ pool'.page = pool₁.page ∧
        pool'.queue = pool₁.queue := by
  have hfresh := h.not_mem_fresh hf
  have hne : b ≠ sentinel := fun heq => by
    have hpos := hf.1
    rw [heq] at hpos
    exact Nat.lt_irrefl 0 hpos
  obtain ⟨tree, l, r, rfl, htree, hrun⟩ := h.tree.insert rbtreeCompare_preorder hne hfresh
  have hperm : (l ++ b :: r).Perm (b :: (l ++ r)) := List.perm_middle
  have hmem : ∀ a, a ∈ l ++ b :: r ↔ a = b ∨ a ∈ l ++ r := fun a => by
    rw [hperm.mem_iff, List.mem_cons]
  have hfuel : (l ++ r).length < pool₁.fuel := by
    rw [fuel, he.memory, h.length_memory]
    omega
  have hapart := h.apart_fresh hf
  refine ⟨{ pool₁ with blocks := tree, memory := (b.start, b.length) :: pool₁.memory },
    l ++ b :: r, ?_, ⟨?_, hmem, he.settings, by rw [he.memory]⟩, rfl, rfl⟩
  · rw [Pool.insertBlock, he.blocks, hrun _ hfuel]
  · have hhas : ∀ ref : PageRef, ref.cluster ≠ b →
        (pool.HasPage (l ++ b :: r) ref ↔ pool.HasPage (l ++ r) ref) := fun ref href =>
      ⟨fun hp => ⟨((hmem _).mp hp.mem).resolve_left href, hp.type, hp.lt⟩,
        fun hp => ⟨(hmem _).mpr (Or.inr hp.mem), hp.type, hp.lt⟩⟩
    have hhasb : ∀ ref : PageRef, ref.cluster = b →
        (pool.HasPage (l ++ b :: r) ref ↔ b.type = .cluster ∧ ref.number < pool.pages) :=
      fun ref href =>
        ⟨fun hp => ⟨href ▸ hp.type, hp.lt⟩,
          fun hp => ⟨(hmem _).mpr (Or.inl href), href.symm ▸ hp.1, hp.2⟩⟩
    refine ⟨he.settings ▸ h.valid, htree, ?_, ?_, ?_, ?_, he.nodup, ?_⟩
    · rw [he.memory]
      exact (h.memory.cons _).trans (hperm.map Block.piece).symm
    · intro x hx y hy hxy
      rcases (hmem x).mp hx with rfl | hx' <;> rcases (hmem y).mp hy with rfl | hy'
      · exact absurd rfl hxy
      · exact (hapart y hy').symm
      · exact hapart x hx'
      · exact h.apart x hx' y hy' hxy
    · intro a ha htype
      change pool₁.Paged ∧ a.size = pool₁.clusterSize ∧ pool₁.pageAlignment ∣ _
      rw [he.settings]
      rcases (hmem a).mp ha with rfl | ha
      · exact hcluster htype
      · exact h.cluster a ha htype
    · intro ref href
      change pool₁.HasPage _ ref at href
      change (pool₁.page ref).Good pool₁.toSettings ref.number
      rw [he.settings] at href ⊢
      by_cases heq : ref.cluster = b
      · obtain ⟨htype, hlt⟩ := (hhasb ref heq).mp href
        subst heq
        obtain ⟨hsize, hnumber⟩ := he.fresh htype ref.number hlt
        exact ⟨hnumber, Or.inl hsize⟩
      · rw [he.page ref heq]
        exact h.page ref ((hhas ref heq).mp href)
    · intro q ref
      change ref ∈ pool₁.queue q ↔ pool₁.HasPage _ ref ∧ (pool₁.page ref).shelf pool₁.toSettings = _
      rw [he.queue, he.settings]
      split
      · rename_i heq
        rw [hhasb ref heq]
        constructor
        · rintro ⟨rfl, htype, hlt⟩
          subst heq
          exact ⟨⟨htype, hlt⟩, Page.shelf_free (he.fresh htype ref.number hlt).1⟩
        · rintro ⟨⟨htype, hlt⟩, hq⟩
          subst heq
          rw [Page.shelf_free (he.fresh htype ref.number hlt).1] at hq
          exact ⟨(Option.some.inj hq).symm, htype, hlt⟩
      · rename_i heq
        rw [hhas ref heq, he.page ref heq]
        exact h.queue q ref

/-- What is in use after an insertion. -/
theorem Inserted.holding {pool₁ : Pool} {nodes' : List Block}
    (hi : Inserted pool pool' nodes nodes' b)
    (he : Extends pool pool₁ b) (hpage : pool'.page = pool₁.page)
    (hfresh : b ∉ nodes) {p : ℕ} {n : Piece} :
    pool'.Holding nodes' p n ↔ pool.Holding nodes p n ∨
      b.type ≠ .cluster ∧ p = b.start ∧ n = ⟨.block, b.size⟩ := by
  have hshift : pool'.pageSizeShift = pool.pageSizeShift := by rw [hi.settings]
  constructor
  · rintro (⟨a, ha, htype, rfl, rfl⟩ | ⟨ref, href, offset, hheld, rfl⟩)
    · rcases (hi.mem a).mp ha with rfl | ha
      · exact Or.inr ⟨htype, rfl, rfl⟩
      · exact Or.inl (Or.inl ⟨a, ha, htype, rfl, rfl⟩)
    · rw [hpage, hi.settings] at hheld
      rcases (hi.mem _).mp href.mem with heq | hmem
      · have htype := heq ▸ href.type
        have hlt : ref.number < pool.pages := hi.settings ▸ href.lt
        subst heq
        exact absurd hheld (Page.not_holds_free (he.fresh htype ref.number hlt).1)
      · have hne : ref.cluster ≠ b := fun heq => hfresh (heq ▸ hmem)
        rw [he.page ref hne] at hheld
        exact Or.inl (Or.inr ⟨ref, ⟨hmem, href.type, hi.settings ▸ href.lt⟩, offset, hheld,
          by rw [hshift]⟩)
  · rintro ((⟨a, ha, htype, rfl, rfl⟩ | ⟨ref, href, offset, hheld, rfl⟩) | ⟨htype, rfl, rfl⟩)
    · exact Or.inl ⟨a, (hi.mem a).mpr (Or.inr ha), htype, rfl, rfl⟩
    · have hne : ref.cluster ≠ b := fun heq => hfresh (heq ▸ href.mem)
      refine Or.inr ⟨ref, ⟨(hi.mem _).mpr (Or.inr href.mem), href.type, hi.settings ▸ href.lt⟩,
        offset, ?_, by rw [hshift]⟩
      rw [hpage, hi.settings, he.page ref hne]
      exact hheld
    · exact Or.inl ⟨b, (hi.mem b).mpr (Or.inl rfl), htype, rfl, rfl⟩

/-- A pool of which the pages of a block are not in a queue. -/
structure Detached (pool pool' : Pool) (b : Block) : Prop where
  settings : pool'.toSettings = pool.toSettings
  blocks : pool'.blocks = pool.blocks
  memory : pool'.memory = pool.memory
  page : pool'.page = pool.page
  nodup : ∀ q, (pool'.queue q).Nodup
  queue : ∀ q (r : PageRef), r ∈ pool'.queue q ↔ r ∈ pool.queue q ∧ r.cluster ≠ b

theorem Shape.detached (h : Shape pool nodes) (htype : b.type ≠ .cluster) :
    Detached pool pool b := by
  refine ⟨rfl, rfl, rfl, rfl, h.nodup, fun q r => ⟨fun hr => ⟨hr, fun heq => ?_⟩, And.left⟩⟩
  exact htype (heq ▸ ((h.queue q r).mp hr).1.type)

/-- What is left of the pool when a block is deleted. -/
structure Deleted (pool pool' : Pool) (nodes nodes' : List Block) (b : Block) : Prop where
  shape : Shape pool' nodes'
  mem : ∀ a, a ∈ nodes' ↔ a ∈ nodes ∧ a ≠ b
  settings : pool'.toSettings = pool.toSettings
  page : pool'.page = pool.page
  memory : pool'.memory ≠ pool.memory
  sub : pool'.memory ⊆ pool.memory

theorem Shape.deleteBlock {pool₁ : Pool} (h : Shape pool nodes) (hb : b ∈ nodes)
    (hd : Detached pool pool₁ b) :
    ∃ pool' nodes', pool₁.deleteBlock b = .ok pool' ∧ Deleted pool pool' nodes nodes' b := by
  obtain ⟨tree, l, r, rfl, htree, hrun⟩ := h.tree.delete hb
  have hperm : (l ++ b :: r).Perm (b :: (l ++ r)) := List.perm_middle
  have hnotin : b ∉ l ++ r := (List.nodup_cons.mp (hperm.nodup_iff.mp h.tree.nodup)).1
  have hmem : ∀ a, a ∈ l ++ r ↔ a ∈ l ++ b :: r ∧ a ≠ b := fun a => by
    rw [hperm.mem_iff, List.mem_cons]
    constructor
    · exact fun ha => ⟨Or.inr ha, fun heq => hnotin (heq ▸ ha)⟩
    · exact fun ha => ha.1.resolve_left ha.2
  have hfuel : (l ++ b :: r).length + 1 < pool₁.fuel := by
    rw [fuel, hd.memory, h.length_memory]
    omega
  have hmemory := h.memory.trans (hperm.map Block.piece)
  have hstart : ∀ a ∈ l ++ r, a.start ≠ b.start := fun a ha heq => by
    obtain ⟨ha', hne⟩ := (hmem a).mp ha
    exact (h.apart a ha' b hb hne).start_ne heq
  -- only the piece of the block starts where the block starts
  have hfilter : (pool.memory.filter fun piece => piece.1 ≠ b.start).Perm
      ((l ++ r).map Block.piece) := by
    refine (hmemory.filter _).trans (List.Perm.of_eq ?_)
    rw [List.map_cons, List.filter_cons_of_neg (by simp [Block.piece])]
    refine List.filter_eq_self.mpr fun piece hpiece => ?_
    obtain ⟨a, ha, rfl⟩ := List.mem_map.mp hpiece
    exact decide_eq_true (hstart a ha)
  refine ⟨{ pool₁ with
    blocks := tree, memory := pool₁.memory.filter fun piece => piece.1 ≠ b.start }, l ++ r, ?_,
    ?_, hmem, hd.settings, hd.page, fun heq => ?_, ?_⟩
  · have hpiece : b.start ∈ pool₁.memory.map Prod.fst := by
      rw [hd.memory, (hmemory.map Prod.fst).mem_iff]
      exact List.mem_cons_self ..
    rw [Pool.deleteBlock, hd.blocks, hrun _ hfuel]
    exact if_pos hpiece
  · have hhas : ∀ ref : PageRef,
        (pool.HasPage (l ++ r) ref ↔ pool.HasPage (l ++ b :: r) ref ∧ ref.cluster ≠ b) := fun ref =>
      ⟨fun hp => ⟨⟨((hmem _).mp hp.mem).1, hp.type, hp.lt⟩, ((hmem _).mp hp.mem).2⟩,
        fun hp => ⟨(hmem _).mpr ⟨hp.1.mem, hp.2⟩, hp.1.type, hp.1.lt⟩⟩
    refine ⟨hd.settings ▸ h.valid, htree, ?_, ?_, ?_, ?_, hd.nodup, ?_⟩
    · rw [hd.memory]
      exact hfilter
    · exact fun x hx y hy => h.apart x ((hmem x).mp hx).1 y ((hmem y).mp hy).1
    · intro a ha
      change a.type = _ → pool₁.Paged ∧ a.size = pool₁.clusterSize ∧ pool₁.pageAlignment ∣ _
      rw [hd.settings]
      exact h.cluster a ((hmem a).mp ha).1
    · intro ref href
      change pool₁.HasPage _ ref at href
      change (pool₁.page ref).Good pool₁.toSettings ref.number
      rw [hd.settings] at href ⊢
      rw [hd.page]
      exact h.page ref ((hhas ref).mp href).1
    · intro q ref
      change ref ∈ pool₁.queue q ↔ pool₁.HasPage _ ref ∧ (pool₁.page ref).shelf pool₁.toSettings = _
      rw [hd.queue, hd.settings, hd.page, hhas, h.queue]
      tauto
  · have hlen := congrArg List.length heq
    change (pool₁.memory.filter _).length = _ at hlen
    rw [hd.memory, hfilter.length_eq, hmemory.length_eq] at hlen
    simp at hlen
  · exact hd.memory ▸ List.filter_sublist.subset

/-- What is in use after a deletion. -/
theorem Deleted.holding {nodes' : List Block} (hd : Deleted pool pool' nodes nodes' b) {p : ℕ}
    {n : Piece} :
    pool'.Holding nodes' p n ↔
      (∃ a ∈ nodes, a ≠ b ∧ a.type ≠ .cluster ∧ p = a.start ∧ n = ⟨.block, a.size⟩) ∨
        ∃ ref, pool.HasPage nodes ref ∧ ref.cluster ≠ b ∧ pool.Within ref p n := by
  have hwithin : ∀ ref, pool'.Within ref p n ↔ pool.Within ref p n := fun ref => by
    rw [Within, hd.page, hd.settings, Within]
  constructor
  · rintro (⟨a, ha, hrest⟩ | ⟨ref, href, hp⟩)
    · exact Or.inl ⟨a, ((hd.mem a).mp ha).1, ((hd.mem a).mp ha).2, hrest⟩
    · obtain ⟨hmem, hne⟩ := (hd.mem _).mp href.mem
      exact Or.inr ⟨ref, ⟨hmem, href.type, hd.settings ▸ href.lt⟩, hne, (hwithin ref).mp hp⟩
  · rintro (⟨a, ha, hne, hrest⟩ | ⟨ref, href, hne, hp⟩)
    · exact Or.inl ⟨a, (hd.mem a).mpr ⟨ha, hne⟩, hrest⟩
    · exact Or.inr ⟨ref, ⟨(hd.mem _).mpr ⟨href.mem, hne⟩, href.type, hd.settings ▸ href.lt⟩,
        (hwithin ref).mpr hp⟩

end Pool

end Njs.Mp
