import Njs.Mp.Create

/-!
# Runs of a pool

A caller creates a pool, and then allocates and frees. The allocations that it has not freed
are the pieces in use, but for the blocks without bytes that it has freed: these stay in the
tree for ever.
-/

namespace Njs.Mp

open Njs.Lib Njs.Rbtree Pool

/-- A call that asks for memory. -/
inductive Call
  | alloc (size : ℕ)
  | align (alignment size : ℕ)
  deriving DecidableEq

namespace Call

/-- What a call asks for. -/
def request : Call → Request
  | alloc size => ⟨1, size⟩
  | align alignment size => ⟨alignment, size⟩

/-- The call takes a page that there is not, or that is too far. -/
def Risky (pool : Pool) : Call → Prop
  | alloc size => size ≤ pool.pageSize ∧ pool.Risky size
  | align alignment size =>
    Request.Small pool.toSettings ⟨alignment, size⟩ ∧ pool.Risky (max size alignment)

/-- The function that is called. -/
def run (sys : System) (pool : Pool) : Call → Result (Option ℕ × Pool)
  | alloc size => pool.alloc sys size
  | align alignment size => pool.align sys alignment size

end Call

/-- An allocation that a caller got. -/
structure Allocation where
  address : ℕ
  request : Request
  deriving DecidableEq

/-- The pools that a caller reaches, with the allocations that it has not freed, and those
without bytes in blocks of their own that it has freed. -/
inductive Reachable (start : Pool) : Pool → List Allocation → List Allocation → Prop
  | start : Reachable start start [] []
  | granted {pool pool' : Pool} {live lost : List Allocation} {sys : System} {call : Call} {p : ℕ}
    (hreach : Reachable start pool live lost) (hsys : sys.Lawful pool.memory)
    (hrun : call.run sys pool = .ok (some p, pool')) :
    Reachable start pool' (⟨p, call.request⟩ :: live) lost
  | refused {pool pool' : Pool} {live lost : List Allocation} {sys : System} {call : Call}
    (hreach : Reachable start pool live lost) (hsys : sys.Lawful pool.memory)
    (hrun : call.run sys pool = .ok (none, pool')) : Reachable start pool' live lost
  | free {pool pool' : Pool} {live lost : List Allocation} {p : ℕ} {error : Option String}
    (hreach : Reachable start pool live lost) (hrun : pool.free p = .ok (error, pool')) :
    Reachable start pool' (live.filter (·.address ≠ p))
      (live.filter (fun a => a.address = p ∧ a.request.Empty pool.toSettings) ++ lost)

namespace Pool

variable {pool pool' start : Pool} {nodes : List Block} {live lost : List Allocation} {p : ℕ}

/-! ## Facts about pools -/

theorem Shape.isEmpty_iff (h : Shape pool nodes) : pool.isEmpty ↔ nodes = [] := by
  constructor
  · rintro ⟨hroot, -⟩
    obtain ⟨t, m, ht, -, rfl⟩ := h.tree.mended
    have hptr : ptr sentinel t = sentinel := ht.root.symm.trans hroot
    rw [ht.links.ptr_eq_sentinel.mp hptr]
    rfl
  · rintro rfl
    refine ⟨?_, List.eq_nil_iff_forall_not_mem.mpr fun r hr => ?_⟩
    · obtain ⟨t, m, ht, -, hnil⟩ := h.tree.mended
      cases t with
      | nil => exact ht.root
      | node c l x r => simp [ColorTree.inorder] at hnil
    · exact absurd ((h.queue _ r).mp hr).1.mem List.not_mem_nil

/-- Some allocation is in use in a pool that is not empty. -/
theorem Inv.exists_holding (h : Inv pool nodes) (hne : nodes ≠ []) :
    ∃ p n, pool.Holding nodes p n := by
  obtain ⟨b, hb⟩ := List.exists_mem_of_ne_nil nodes hne
  by_cases htype : b.type = .cluster
  · obtain ⟨i, hi, hsize⟩ := h.occupied b hb htype
    have href : pool.HasPage nodes ⟨b, i⟩ := ⟨hb, htype, hi⟩
    obtain ⟨offset, n, hheld⟩ := (h.page _ href).exists_holds hsize
    exact ⟨_, n, Or.inr ⟨_, href, offset, hheld, rfl⟩⟩
  · exact ⟨_, _, Or.inl ⟨b, hb, htype, rfl, rfl⟩⟩

/-- One allocation at most starts at an address. -/
theorem Shape.holding_unique (h : Shape pool nodes) {n n' : Piece}
    (hn : pool.Holding nodes p n) (hn' : pool.Holding nodes p n') : n = n' := by
  have hlarge : ∀ b ∈ nodes, b.type ≠ .cluster → p = b.start → ∀ m, pool.Holding nodes p m →
      m = ⟨.block, b.size⟩ := by
    rintro b hb htype rfl m (⟨a, ha, -, heq, rfl⟩ | ⟨ref, href, hp⟩)
    · by_cases hab : a = b
      · rw [hab]
      · exact absurd heq.symm (h.apart a ha b hb hab).start_ne
    · have hne : b ≠ ref.cluster := fun heq => htype (heq ▸ href.type)
      exact absurd (h.within_number href hp).1 (h.apart b hb _ href.mem hne).not_contains
  rcases hn with ⟨b, hb, htype, hp, rfl⟩ | ⟨ref, href, hp⟩
  · exact (hlarge b hb htype hp n' hn').symm
  · rcases hn' with ⟨b, hb, htype, hpb, rfl⟩ | ⟨ref', href', hp'⟩
    · exact hlarge b hb htype hpb n (Or.inr ⟨ref, href, hp⟩)
    · obtain rfl := h.within_unique href href' hp hp'
      obtain ⟨offset, hheld, rfl⟩ := hp
      obtain ⟨offset', hheld', heq⟩ := hp'
      have : offset' = offset := by omega
      exact (h.page _ href).holds_unique hheld (this ▸ hheld')

/-- Where the size of a whole page does not fit an `int`, the page cannot be freed. -/
theorem free_overflow (h : Inv pool nodes) {ref : PageRef} (href : pool.HasPage nodes ref)
    (hwhole : (pool.page ref).size = 2 ^ pool.depth) (hwide : pool.pageSize = 2 ^ 31) {n : Piece}
    (hp : pool.Within ref p n) : pool.free p = .error .fault := by
  have hs := h.paged href
  obtain ⟨hc, hnumber⟩ := h.within_number href hp
  obtain ⟨r, hrun, hfound⟩ := h.findBlock p
  have hfind : pool.findBlock p = .ok (some ref.cluster) := by
    cases r with
    | none => exact absurd hc (hfound _ href.mem)
    | some b => rw [hrun, hfound.2.unique hc (h.apart b hfound.1 _ href.mem)]
  have hpos := Nat.two_pow_pos pool.depth
  have hread : pool.readPage ref = .ok (pool.page ref) := if_pos href.lt
  have hshift : (p - ref.cluster.start) >>> pool.pageSizeShift = ref.number := by
    rw [hnumber, Nat.shiftRight_eq_div_pow]
  have hoverflow := shiftInt_pageSize hs
  rw [if_pos hwide] at hoverflow
  rw [free, hfind]
  change (if _ then _ else _) = _
  rw [if_pos href.type, chunkFree]
  simp only [hshift]
  change (pool.readPage ref >>= _) = _
  rw [hread]
  change (if _ then _ else _) = _
  rw [if_neg (by omega), hwhole, hoverflow]
  rfl

/-! ## What is in use in a run -/

/-- The allocation is served by the piece in use at its address. -/
def Backed (pool : Pool) (nodes : List Block) (a : Allocation) : Prop :=
  ∃ n, pool.Holding nodes a.address n ∧ a.request.Fits pool.toSettings n ∧
    (a.request.alignment = 0 ∨ a.request.alignment ∣ a.address)

/-- The pieces in use are the allocations that are not freed, and the lost ones. -/
structure Tracks (pool : Pool) (nodes : List Block) (live lost : List Allocation) : Prop
    extends Inv pool nodes where
  distinct : ((live ++ lost).map Allocation.address).Nodup
  backed : ∀ a ∈ live ++ lost, pool.Backed nodes a
  all : ∀ p n, pool.Holding nodes p n → ∃ a ∈ live ++ lost, a.address = p
  empty : ∀ a ∈ lost, a.request.Empty pool.toSettings

theorem Tracks.granted {n : Piece} {q : Request} (h : Tracks pool nodes live lost)
    (hg : Granted pool pool' nodes p n) (hfits : q.Fits pool.toSettings n)
    (halign : q.alignment = 0 ∨ q.alignment ∣ p) :
    ∃ nodes', Tracks pool' nodes' (⟨p, q⟩ :: live) lost := by
  obtain ⟨nodes', hinv, hiff⟩ := hg.inv
  refine ⟨nodes', hinv, List.nodup_cons.mpr ⟨fun hmem => ?_, h.distinct⟩, fun a ha => ?_,
    fun q' m hheld => ?_, fun a ha => hg.settings ▸ h.empty a ha⟩
  · obtain ⟨a, ha, rfl⟩ := List.mem_map.mp hmem
    obtain ⟨m, hheld, -⟩ := h.backed a ha
    exact hg.fresh m hheld
  · rw [Backed, hg.settings]
    rcases List.mem_cons.mp ha with rfl | ha
    · exact ⟨n, (hiff p n).mpr (Or.inr ⟨rfl, rfl⟩), hfits, halign⟩
    · obtain ⟨m, hheld, hrest⟩ := h.backed a ha
      exact ⟨m, (hiff _ m).mpr (Or.inl hheld), hrest⟩
  · rcases (hiff q' m).mp hheld with hold | ⟨rfl, -⟩
    · obtain ⟨a, ha, heq⟩ := h.all q' m hold
      exact ⟨a, List.mem_cons_of_mem _ ha, heq⟩
    · exact ⟨_, List.mem_cons_self .., rfl⟩

/-- The allocation at the address of a piece with bytes is not lost. -/
theorem Tracks.not_empty {n : Piece} (h : Tracks pool nodes live lost)
    (hheld : pool.Holding nodes p n) (hpos : 0 < n.size) :
    ∀ a ∈ live ++ lost, a.address = p → ¬a.request.Empty pool.toSettings := by
  rintro a ha rfl hempty
  obtain ⟨m, hm, hfits, -⟩ := h.backed a ha
  rw [h.toShape.holding_unique hm hheld] at hfits
  have := hfits.empty.mpr hempty
  omega

theorem Tracks.free (h : Tracks pool nodes live lost)
    (hr : Freed pool pool' nodes p ∨ Kept pool pool' nodes p) :
    ∃ nodes', Tracks pool' nodes' (live.filter (·.address ≠ p))
      (live.filter (fun a => a.address = p ∧ a.request.Empty pool.toSettings) ++ lost) := by
  rcases hr with hf | hk
  · obtain ⟨n, hpos, hheld⟩ := hf.held
    obtain ⟨nodes', hinv, hiff⟩ := hf.inv
    have hnot := h.not_empty hheld hpos
    have hnone : live.filter (fun a => a.address = p ∧ a.request.Empty pool.toSettings) = [] := by
      refine List.filter_eq_nil_iff.mpr fun a ha hand => ?_
      have hand := of_decide_eq_true hand
      exact hnot a (List.mem_append_left _ ha) hand.1 hand.2
    have hsub : (live.filter (·.address ≠ p) ++ lost).Sublist (live ++ lost) :=
      List.filter_sublist.append_right lost
    have hne : ∀ a ∈ live.filter (·.address ≠ p) ++ lost, a.address ≠ p := by
      intro a ha
      rcases List.mem_append.mp ha with ha | ha
      · exact of_decide_eq_true (List.mem_filter.mp ha).2
      · exact fun heq => hnot a (List.mem_append_right _ ha) heq (h.empty a ha)
    rw [hnone, List.nil_append]
    refine ⟨nodes', hinv, (hsub.map _).nodup h.distinct, fun a ha => ?_, fun q m hq => ?_,
      fun a ha => hf.settings ▸ h.empty a ha⟩
    · obtain ⟨m, hm, hrest⟩ := h.backed a (hsub.subset ha)
      rw [Backed, hf.settings]
      exact ⟨m, (hiff _ m).mpr ⟨hm, hne a ha⟩, hrest⟩
    · obtain ⟨hold, hqp⟩ := (hiff q m).mp hq
      obtain ⟨a, ha, rfl⟩ := h.all q m hold
      refine ⟨a, ?_, rfl⟩
      rcases List.mem_append.mp ha with ha | ha
      · exact List.mem_append_left _ (List.mem_filter.mpr ⟨ha, decide_eq_true hqp⟩)
      · exact List.mem_append_right _ ha
  · obtain rfl := hk.same
    have hempty : ∀ a ∈ live, a.address = p → a.request.Empty pool'.toSettings := by
      rintro a ha rfl
      obtain ⟨n, hheld, hfits, -⟩ := h.backed a (List.mem_append_left _ ha)
      exact hfits.empty.mp (hk.held n hheld)
    have hsame : live.filter (fun a => a.address = p ∧ a.request.Empty pool'.toSettings) =
        live.filter (fun a => !decide (a.address ≠ p)) := by
      refine List.filter_congr fun a ha => ?_
      by_cases hp : a.address = p
      · simp [hp, hempty a ha hp]
      · simp [hp]
    have hperm : (live.filter (·.address ≠ p) ++
        (live.filter (fun a => a.address = p ∧ a.request.Empty pool'.toSettings) ++ lost)).Perm
        (live ++ lost) := by
      rw [hsame, ← List.append_assoc]
      exact (List.filter_append_perm ..).append_right lost
    refine ⟨nodes, h.toInv, (hperm.map _).nodup_iff.mpr h.distinct,
      fun a ha => h.backed a (hperm.mem_iff.mp ha), fun q m hq => ?_, fun a ha => ?_⟩
    · obtain ⟨a, ha, heq⟩ := h.all q m hq
      exact ⟨a, hperm.mem_iff.mpr ha, heq⟩
    · rcases List.mem_append.mp ha with ha | ha
      · exact (of_decide_eq_true (List.mem_filter.mp ha).2).2
      · exact h.empty a ha

/-- What a call for memory does. -/
theorem call_spec {sys : System} {call : Call} (h : Inv pool nodes)
    (hsys : sys.Lawful pool.memory)
    (hchunk : call.request.Chunk pool.toSettings → 0 < pool.depth) :
    Unless (call.Risky pool) .fault (call.run sys pool)
      (Serves pool nodes call.request) := by
  cases call with
  | alloc size => exact alloc_spec h hsys hchunk
  | align alignment size => exact align_spec h hsys hchunk

theorem settings_of_free (hr : Freed pool pool' nodes p ∨ Kept pool pool' nodes p) :
    pool'.toSettings = pool.toSettings := by
  rcases hr with hf | hk
  · exact hf.settings
  · rw [hk.same]

theorem reachable_tracks (hstart : start.Inv []) (hdepth : 0 < start.depth)
    (hreach : Reachable start pool live lost) :
    pool.toSettings = start.toSettings ∧ ∃ nodes, Tracks pool nodes live lost := by
  induction hreach with
  | start =>
    refine ⟨rfl, [], hstart, List.nodup_nil, (fun _ ha => nomatch ha), ?_,
      (fun _ ha => nomatch ha)⟩
    rintro p n (⟨b, hb, -⟩ | ⟨ref, href, -⟩)
    · exact nomatch hb
    · exact nomatch href.mem
  | @granted pool pool' live lost sys call p hreach hsys hrun ih =>
    obtain ⟨hsettings, nodes, h⟩ := ih
    have hspec := @call_spec _ _ _ call h.toInv hsys fun _ => hsettings ▸ hdepth
    rcases hspec.of_eq hrun with heq | ⟨q, n, hq, hg, hfits, halign⟩
    · cases heq
    · obtain rfl := Option.some.inj hq
      exact ⟨hg.settings.trans hsettings, h.granted hg hfits halign⟩
  | @refused pool pool' live lost sys call hreach hsys hrun ih =>
    obtain ⟨hsettings, nodes, h⟩ := ih
    have hspec := @call_spec _ _ _ call h.toInv hsys fun _ => hsettings ▸ hdepth
    rcases hspec.of_eq hrun with heq | ⟨q, n, hq, -⟩
    · cases heq
      exact ⟨hsettings, nodes, h⟩
    · cases hq
  | free hreach hrun ih =>
    obtain ⟨hsettings, nodes, h⟩ := ih
    have hr := (free_spec h.toInv _).of_eq hrun
    exact ⟨(settings_of_free hr).trans hsettings, h.free hr⟩

/-! ## Releases -/

/-- `njs_mp_free` for one address after the other. -/
def freeAll : List ℕ → Pool → Result Pool
  | [], pool => .ok pool
  | p :: rest, pool => do
    let (_, pool) ← pool.free p
    freeAll rest pool

/-- `njs_mp_free` changes the pool for the addresses of the allocations, and for no others. -/
def FreeIsExact (pool : Pool) (live : List Allocation) : Prop :=
  ∀ p, ∃ r, pool.free p = .ok r ∧ (r.2 ≠ pool ↔ ∃ a ∈ live, a.address = p)

/-- The pool is empty after the allocations of more than no bytes are freed, in any order. -/
def EmptiesAfter (pool : Pool) (live : List Allocation) : Prop :=
  ∀ order : List ℕ, order.Perm ((live.filter fun a => 0 < a.request.size).map (·.address)) →
    ∃ pool', freeAll order pool = .ok pool' ∧ pool'.isEmpty

theorem Tracks.nodes_ne_nil (h : Tracks pool nodes live lost) {a : Allocation}
    (ha : a ∈ live ++ lost) : nodes ≠ [] := by
  rintro rfl
  obtain ⟨n, ⟨b, hb, -⟩ | ⟨ref, href, -⟩, -⟩ := h.backed a ha
  · exact nomatch hb
  · exact nomatch href.mem

theorem Tracks.isEmpty (h : Tracks pool nodes [] []) : pool.isEmpty := by
  refine h.toShape.isEmpty_iff.mpr ?_
  by_contra hne
  obtain ⟨p, n, hheld⟩ := h.toInv.exists_holding hne
  obtain ⟨a, ha, -⟩ := h.all p n hheld
  exact nomatch ha

/-- The allocation of a whole page that cannot be freed. -/
theorem Tracks.exists_whole (h : Tracks pool nodes live lost) (ho : Overflowing pool nodes) :
    ∃ a ∈ live ++ lost, a.request.Whole pool.toSettings := by
  obtain ⟨-, ref, href, hwhole⟩ := ho
  have hheld : pool.Holding nodes (pool.pieceAddr ref 0) ⟨.page, pool.pageSize⟩ :=
    Or.inr ⟨ref, href, 0, Or.inl ⟨hwhole, rfl, rfl⟩, rfl⟩
  obtain ⟨a, ha, heq⟩ := h.all _ _ hheld
  obtain ⟨n, hn, hfits, -⟩ := h.backed a ha
  rw [heq] at hn
  rw [h.toShape.holding_unique hn hheld] at hfits
  exact ⟨a, ha, hfits.whole.mp rfl⟩

theorem Tracks.free_whole (h : Tracks pool nodes live lost) {a : Allocation}
    (ha : a ∈ live ++ lost) (hwhole : a.request.Whole pool.toSettings)
    (hwide : pool.pageSize = 2 ^ 31) : pool.free a.address = .error .fault := by
  obtain ⟨n, hheld, hfits, -⟩ := h.backed a ha
  have hkind := hfits.whole.mpr hwhole
  rcases hheld with ⟨b, -, -, -, rfl⟩ | ⟨ref, href, hp⟩
  · cases hkind
  · obtain ⟨offset, ⟨hsize, -⟩ | ⟨i, -, -, rfl, -⟩, -⟩ := id hp
    · exact free_overflow h.toInv href hsize hwide hp
    · cases hkind

/-- What is not freed is still there after a series of releases. -/
theorem Tracks.freeAll {order : List ℕ} (h : Tracks pool nodes live lost)
    (hrun : freeAll order pool = .ok pool') :
    ∃ nodes' live' lost', Tracks pool' nodes' live' lost' ∧
      (∀ a ∈ live, a.address ∉ order → a ∈ live') ∧ ∀ a ∈ lost, a ∈ lost' := by
  induction order generalizing pool nodes live lost with
  | nil =>
    cases hrun
    exact ⟨nodes, live, lost, h, fun a ha _ => ha, fun a ha => ha⟩
  | cons p rest ih =>
    rw [Pool.freeAll] at hrun
    cases hfree : pool.free p with
    | error e =>
      rw [hfree] at hrun
      cases hrun
    | ok r =>
      rw [hfree] at hrun
      obtain ⟨nodes₁, h₁⟩ := h.free ((free_spec h.toInv p).of_eq hfree)
      obtain ⟨nodes', live', lost', h', hlive, hlost⟩ := ih h₁ hrun
      refine ⟨nodes', live', lost', h', fun a ha hnot => ?_, fun a ha => ?_⟩
      · have hne : a.address ≠ p := fun heq => hnot (heq ▸ List.mem_cons_self ..)
        refine hlive a (List.mem_filter.mpr ⟨ha, decide_eq_true hne⟩) fun hmem => ?_
        exact hnot (List.mem_cons_of_mem _ hmem)
      · exact hlost a (List.mem_append_right _ ha)

/-- The requests of the allocations neither are for no bytes, nor got pages that cannot be
freed. -/
def Clean (pool : Pool) (live : List Allocation) : Prop :=
  ∀ a ∈ live, 0 < a.request.size ∧ ¬(pool.pageSize = 2 ^ 31 ∧ a.request.Whole pool.toSettings)

theorem Tracks.free_clean (h : Tracks pool nodes live []) (hclean : Clean pool live) (p : ℕ) :
    ∃ r nodes', pool.free p = .ok r ∧ (r.2 ≠ pool ↔ ∃ a ∈ live, a.address = p) ∧
      Tracks r.2 nodes' (live.filter (·.address ≠ p)) [] ∧
      Clean r.2 (live.filter (·.address ≠ p)) := by
  have hsafe : ¬Overflowing pool nodes := fun ho => by
    obtain ⟨a, ha, hwhole⟩ := h.exists_whole ho
    rw [List.append_nil] at ha
    exact (hclean a ha).2 ⟨ho.1, hwhole⟩
  have hnone : live.filter (fun a => a.address = p ∧ a.request.Empty pool.toSettings) = [] := by
    refine List.filter_eq_nil_iff.mpr fun a ha hand => ?_
    have hempty := (of_decide_eq_true hand).2.1
    have hpos := (hclean a ha).1
    omega
  obtain ⟨r, hrun, hr⟩ := (free_spec h.toInv p).exists_ok hsafe
  obtain ⟨nodes', h'⟩ := h.free hr
  rw [hnone] at h'
  have hsettings := settings_of_free hr
  refine ⟨r, nodes', hrun, ?_, h', fun a ha => ?_⟩
  · rcases hr with hf | hk
    · obtain ⟨n, -, hheld⟩ := hf.held
      obtain ⟨a, ha, heq⟩ := h.all p n hheld
      rw [List.append_nil] at ha
      exact ⟨fun _ => ⟨a, ha, heq⟩, fun _ => hf.changed⟩
    · refine ⟨fun hne => absurd hk.same hne, ?_⟩
      rintro ⟨a, ha, rfl⟩
      obtain ⟨n, hheld, hfits, -⟩ := h.backed a (List.mem_append_left _ ha)
      have hzero := (hfits.empty.mp (hk.held n hheld)).1
      have hpos := (hclean a ha).1
      omega
  · rw [hsettings]
    exact hclean a (List.mem_filter.mp ha).1

theorem Tracks.empties {order : List ℕ} (h : Tracks pool nodes live []) (hclean : Clean pool live)
    (hperm : order.Perm (live.map (·.address))) :
    ∃ pool', Pool.freeAll order pool = .ok pool' ∧ pool'.isEmpty := by
  induction order generalizing pool nodes live with
  | nil =>
    obtain rfl := List.map_eq_nil_iff.mp hperm.symm.eq_nil
    exact ⟨pool, rfl, h.isEmpty⟩
  | cons p rest ih =>
    obtain ⟨r, nodes', hrun, -, h', hclean'⟩ := h.free_clean hclean p
    have hnodup : (live.map (·.address)).Nodup := by simpa using h.distinct
    have hrest : rest.Perm ((live.filter (·.address ≠ p)).map (·.address)) := by
      have herase := hperm.erase p
      rw [List.erase_cons_head, hnodup.erase_eq_filter] at herase
      refine herase.trans (List.Perm.of_eq ?_)
      rw [List.filter_map]
      congr 1
      exact List.filter_congr fun a _ => by simp [bne, Function.comp, beq_eq_decide]
    obtain ⟨pool', hall, hempty⟩ := ih h' hclean' hrest
    refine ⟨pool', ?_, hempty⟩
    rw [Pool.freeAll, hrun]
    exact hall

/-- In every pool that is reached, `njs_mp_free` changes the pool exactly for the allocations that
are not freed, and leaves it empty after all of them with any bytes, if and only if none of them
is for no bytes or a page whose size does not fit an `int`, and no block without bytes is lost. -/
theorem frees_iff {clusterSize pageAlignment pageSize minChunkSize : UInt64}
    (hcreate : create clusterSize pageAlignment pageSize minChunkSize = some start)
    (hchunk : minChunkSize < pageSize) (hreach : Reachable start pool live lost) :
    FreeIsExact pool live ∧ EmptiesAfter pool live ↔ lost = [] ∧ Clean pool live := by
  obtain ⟨hstart, hdepth⟩ := create_inv hcreate
  obtain ⟨-, nodes, h⟩ := reachable_tracks hstart (hdepth.mpr hchunk) hreach
  constructor
  · rintro ⟨hexact, hempties⟩
    obtain ⟨pool', hrun, hempty⟩ := hempties _ (List.Perm.refl _)
    obtain ⟨nodes', live', lost', h', hlive, hlost⟩ := h.freeAll hrun
    have hnil := h'.toShape.isEmpty_iff.mp hempty
    refine ⟨List.eq_nil_iff_forall_not_mem.mpr fun a ha => ?_, fun a ha => ⟨?_, ?_⟩⟩
    · exact h'.nodes_ne_nil (List.mem_append_right _ (hlost a ha)) hnil
    · by_contra hzero
      refine h'.nodes_ne_nil (List.mem_append_left _ (hlive a ha fun hmem => ?_)) hnil
      obtain ⟨b, hb, heq⟩ := List.mem_map.mp hmem
      obtain ⟨hb, hpos⟩ := List.mem_filter.mp hb
      have hdistinct : (live.map Allocation.address).Nodup := by
        have := h.distinct
        rw [List.map_append] at this
        exact (List.nodup_append.mp this).1
      have hab : b = a := List.inj_on_of_nodup_map hdistinct hb ha heq
      exact hzero (hab ▸ of_decide_eq_true hpos)
    · rintro ⟨hwide, hwhole⟩
      obtain ⟨r, hr, -⟩ := hexact a.address
      rw [h.free_whole (List.mem_append_left _ ha) hwhole hwide] at hr
      cases hr
  · rintro ⟨rfl, hclean⟩
    refine ⟨fun p => ?_, fun order horder => ?_⟩
    · obtain ⟨r, -, hrun, hiff, -⟩ := h.free_clean hclean p
      exact ⟨r, hrun, hiff⟩
    · rw [List.filter_eq_self.mpr fun a ha => decide_eq_true (hclean a ha).1] at horder
      exact h.empties hclean horder

/-! ## What a caller gets -/

/-- Two pieces of memory, given by their addresses and sizes, have no byte in common. -/
def Disjoint (p size p' size' : ℕ) : Prop := p + size ≤ p' ∨ p' + size' ≤ p

theorem mul_disjoint {c d k : ℕ} (h : c < d) : c * k + k ≤ d * k := by
  rw [← Nat.succ_mul]
  exact Nat.mul_le_mul_right k h

/-- The pieces of a page are disjoint. -/
theorem holds_disjoint {s : Settings} {g : Page} {number o o' : ℕ} {n n' : Piece}
    (h : g.Good s number) (hn : g.Holds s o n) (hn' : g.Holds s o' n') (hne : o ≠ o') :
    Disjoint o n.size o' n'.size := by
  rcases h.state with hfree | hwhole | ⟨i, hchunked⟩
  · exact absurd hn (Page.not_holds_free hfree)
  · have hzero := ((Page.holds_whole hwhole).mp hn).1
    have hzero' := ((Page.holds_whole hwhole).mp hn').1
    omega
  · obtain ⟨rfl, c, -, rfl⟩ := hchunked.holds_iff.mp hn
    obtain ⟨rfl, d, -, rfl⟩ := hchunked.holds_iff.mp hn'
    rcases lt_trichotomy c d with hlt | rfl | hlt
    · exact Or.inl (mul_disjoint hlt)
    · exact absurd rfl hne
    · exact Or.inr (mul_disjoint hlt)

/-- A piece in use is inside of a block: it is the block, or is in one of its pages. -/
theorem Shape.holding_inside (h : Shape pool nodes) {n : Piece} (hn : pool.Holding nodes p n) :
    ∃ b ∈ nodes, b.start ≤ p ∧ p + n.size ≤ b.start + b.size ∧
      (b.type ≠ .cluster ∧ p = b.start ∨
        ∃ number, pool.HasPage nodes ⟨b, number⟩ ∧ pool.Within ⟨b, number⟩ p n) := by
  rcases hn with ⟨b, hb, htype, rfl, rfl⟩ | ⟨⟨b, number⟩, href, hp⟩
  · exact ⟨b, hb, Nat.le_refl _, Nat.le_refl _, Or.inl ⟨htype, rfl⟩⟩
  · obtain ⟨-, hge, -, hle⟩ := h.within_le href hp
    exact ⟨b, href.mem, Nat.le_of_add_right_le hge, hle, Or.inr ⟨number, href, hp⟩⟩

/-- The pieces in use are disjoint. -/
theorem Shape.holding_disjoint (h : Shape pool nodes) {p' : ℕ} {n n' : Piece}
    (hn : pool.Holding nodes p n) (hn' : pool.Holding nodes p' n') (hne : p ≠ p') :
    Disjoint p n.size p' n'.size := by
  obtain ⟨a, ha, hge, hle, hin⟩ := h.holding_inside hn
  obtain ⟨b, hb, hge', hle', hin'⟩ := h.holding_inside hn'
  by_cases hab : a = b
  · subst hab
    rcases hin with ⟨htype, rfl⟩ | ⟨i, href, hp⟩
    · rcases hin' with ⟨-, rfl⟩ | ⟨j, href', -⟩
      · exact absurd rfl hne
      · exact absurd href'.type htype
    rcases hin' with ⟨htype, -⟩ | ⟨j, href', hp'⟩
    · exact absurd href.type htype
    obtain ⟨-, hfrom, hto, -⟩ := h.within_le href hp
    obtain ⟨-, hfrom', hto', -⟩ := h.within_le href' hp'
    simp only [Nat.succ_mul] at hfrom hto hfrom' hto'
    rcases lt_trichotomy i j with hlt | rfl | hlt
    · have := @mul_disjoint _ _ (2 ^ pool.pageSizeShift) hlt
      exact Or.inl (by omega)
    · obtain ⟨o, hheld, rfl⟩ := hp
      obtain ⟨o', hheld', rfl⟩ := hp'
      have := holds_disjoint (h.page _ href) hheld hheld' (by omega)
      unfold Disjoint at this ⊢
      omega
    · have := @mul_disjoint _ _ (2 ^ pool.pageSizeShift) hlt
      exact Or.inr (by omega)
  · have hsize := a.size_le_span
    have hsize' := b.size_le_span
    unfold Disjoint
    rcases h.apart a ha b hb hab with hapart | hapart <;> omega

/-- **The allocations of a pool.** In every pool that is reached from one whose chunks are smaller
than its pages, the allocations that are not freed have no byte in common, and each of them is
aligned and inside of memory that the pool has from the system and did not give back. -/
theorem reachable_allocations {clusterSize pageAlignment pageSize minChunkSize : UInt64}
    (hcreate : create clusterSize pageAlignment pageSize minChunkSize = some start)
    (hchunk : minChunkSize < pageSize) (hreach : Reachable start pool live lost) :
    (∀ a ∈ live, (a.request.alignment = 0 ∨ a.request.alignment ∣ a.address) ∧
      ∃ piece ∈ pool.memory, piece.1 ≤ a.address ∧
        a.address + a.request.size ≤ piece.1 + piece.2) ∧
      live.Pairwise fun a b => a.address ≠ b.address ∧
        Disjoint a.address a.request.size b.address b.request.size := by
  obtain ⟨hstart, hdepth⟩ := create_inv hcreate
  obtain ⟨-, nodes, h⟩ := reachable_tracks hstart (hdepth.mpr hchunk) hreach
  refine ⟨fun a ha => ?_, ?_⟩
  · obtain ⟨n, hheld, hfits, halign⟩ := h.backed a (List.mem_append_left _ ha)
    obtain ⟨b, hb, hge, hle⟩ := h.toShape.holding_inside hheld
    have hmem : b.piece ∈ pool.memory := h.memory.mem_iff.mpr (List.mem_map_of_mem hb)
    have hsize := hfits.size
    have hlength := b.size_le_length
    exact ⟨halign, b.piece, hmem, hge, by simp only [Block.piece]; omega⟩
  · have hdistinct := h.distinct
    rw [List.map_append] at hdistinct
    have hpairwise := List.pairwise_map.mp (List.nodup_append.mp hdistinct).1
    refine hpairwise.imp_of_mem fun {a b} ha hb hne => ⟨hne, ?_⟩
    obtain ⟨n, hheld, hfits, -⟩ := h.backed a (List.mem_append_left _ ha)
    obtain ⟨n', hheld', hfits', -⟩ := h.backed b (List.mem_append_left _ hb)
    have hdisjoint := h.toShape.holding_disjoint hheld hheld' hne
    have hsize := hfits.size
    have hsize' := hfits'.size
    unfold Disjoint at hdisjoint ⊢
    omega

/-- A system that has one piece of memory. -/
def oneMemory : System where
  malloc := fun _ => true
  memalign := fun alignment _ => if alignment ∣ 4096 then some 4096 else none

theorem oneMemory_lawful : oneMemory.Lawful [] := by
  refine ⟨fun a n p h => ?_, fun a n p h => ?_⟩ <;> simp only [oneMemory] at h <;> split at h <;>
    cases h
  · exact ⟨by decide, fun _ hp => nomatch hp⟩
  · assumption

/-- A pool of clusters that are one page of 64 bytes. -/
def onePage : Pool := fastCreate 64 16 64 16

theorem onePage_create : create 64 16 64 16 = some onePage := rfl

/-- The pool after one call. -/
def onePageAfter (call : Call) : Pool :=
  match call.run oneMemory onePage with
  | .ok r => r.2
  | .error _ => onePage

theorem onePage_reachable {call : Call}
    (hrun : call.run oneMemory onePage = .ok (some 4096, onePageAfter call)) :
    Reachable onePage (onePageAfter call) [⟨4096, call.request⟩] [] :=
  .granted .start oneMemory_lawful hrun

theorem onePage_frees : FreeIsExact (onePageAfter (.alloc 20)) [⟨4096, ⟨1, 20⟩⟩] ∧
    EmptiesAfter (onePageAfter (.alloc 20)) [⟨4096, ⟨1, 20⟩⟩] := by
  refine (frees_iff onePage_create (by decide) (@onePage_reachable (.alloc 20) rfl)).mpr
    ⟨rfl, fun a ha => ?_⟩
  obtain rfl := List.mem_singleton.mp ha
  exact ⟨by decide, fun hand => absurd hand.1 (by decide)⟩

theorem onePage_allocations :
    (∀ a ∈ [(⟨4096, ⟨1, 20⟩⟩ : Allocation)],
      (a.request.alignment = 0 ∨ a.request.alignment ∣ a.address) ∧
        ∃ piece ∈ (onePageAfter (.alloc 20)).memory, piece.1 ≤ a.address ∧
          a.address + a.request.size ≤ piece.1 + piece.2) ∧
      [(⟨4096, ⟨1, 20⟩⟩ : Allocation)].Pairwise fun a b => a.address ≠ b.address ∧
        Disjoint a.address a.request.size b.address b.request.size :=
  reachable_allocations onePage_create (by decide) (@onePage_reachable (.alloc 20) rfl)

/-- An allocation of no bytes beyond the alignment of pages is not freed. -/
theorem onePage_not_frees :
    Reachable onePage (onePageAfter (.align 32 0)) [⟨4096, ⟨32, 0⟩⟩] [] ∧
      ¬FreeIsExact (onePageAfter (.align 32 0)) [⟨4096, ⟨32, 0⟩⟩] := by
  refine ⟨@onePage_reachable (.align 32 0) rfl, fun hexact => ?_⟩
  obtain ⟨r, hrun, hiff⟩ := hexact 4096
  have hfree : (onePageAfter (.align 32 0)).free 4096 =
      .ok (some "freed pointer is out of mp: %p\n", onePageAfter (.align 32 0)) := rfl
  rw [hfree] at hrun
  cases hrun
  exact hiff.mpr ⟨_, List.mem_singleton.mpr rfl, rfl⟩ rfl

end Pool

end Njs.Mp
