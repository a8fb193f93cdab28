import Njs.Rbtree.Runs
import Mathlib.Data.Nat.Log

/-!
# Ordered search and succession

The searches keep to the subtree in which the result is, and the best node that they have seen.
The successor of a node is the leftmost node of its right subtree, or the last node on the path
to it from which the path goes left; this is the sentinel if there is none.
-/

namespace Njs.Rbtree

open Njs.Lib Njs.Lib.ColorTree

variable {P : Type} {sentinel callback : P} {compare : P → P → ℤ} {h : Heap P} {probe q : P}
  {t : ColorTree P}

/-! ## Searches -/

theorem sorted_node {c : Color} {l r : ColorTree P} {x : P}
    (hs : Sorted compare (ColorTree.node c l x r).inorder) :
    Sorted compare l.inorder ∧ Sorted compare r.inorder ∧
      (∀ z ∈ l.inorder, compare z x ≤ 0) ∧ ∀ z ∈ r.inorder, compare x z ≤ 0 := by
  obtain ⟨hl, hr, hlr⟩ := List.pairwise_append.mp hs
  obtain ⟨hxr, hr⟩ := List.pairwise_cons.mp hr
  exact ⟨hl, hr, fun z hz => hlr z hz x (List.mem_cons_self ..), hxr⟩

/-- What `njs_rbtree_find` gives. -/
def Found (compare : P → P → ℤ) (probe : P) (nodes : List P) : Option P → Prop
  | some x => x ∈ nodes ∧ compare probe x = 0
  | none => ∀ x ∈ nodes, compare probe x ≠ 0

theorem Found.congr {nodes nodes' : List P} {r : Option P} (hfound : Found compare probe nodes r)
    (hsub : ∀ z ∈ nodes, z ∈ nodes')
    (hother : ∀ z ∈ nodes', z ∈ nodes ∨ compare probe z ≠ 0) : Found compare probe nodes' r := by
  cases r with
  | some x => exact ⟨hsub x hfound.1, hfound.2⟩
  | none => exact fun z hz => (hother z hz).elim (hfound z) id

/-- The node `a` is not beyond `b`, towards the side `s`. -/
def NotBeyond (compare : P → P → ℤ) : Side → P → P → Prop
  | .right, a, b => compare a b ≤ 0
  | .left, a, b => compare b a ≤ 0

theorem NotBeyond.trans (ho : TotalPreorder compare) {s : Side} {a b c : P}
    (hab : NotBeyond compare s a b) (hbc : NotBeyond compare s b c) : NotBeyond compare s a c := by
  cases s with
  | left => exact ho.trans c b a hbc hab
  | right => exact ho.trans a b c hab hbc

/-- What the bounded searches give: the last node towards `s` that is not beyond the probe. -/
def FoundBound (compare : P → P → ℤ) (s : Side) (probe : P) (nodes : List P) : Option P → Prop
  | some x => x ∈ nodes ∧ NotBeyond compare s x probe ∧
      ∀ y ∈ nodes, NotBeyond compare s y probe → NotBeyond compare s y x
  | none => ∀ x ∈ nodes, ¬NotBeyond compare s x probe

/-- The result of the bounded search in a subtree, with the best node outside it. -/
def Bounds (compare : P → P → ℤ) (s : Side) (probe : P) (nodes : List P) (retval r : Option P) :
    Prop :=
  (∃ x, r = some x ∧ FoundBound compare s probe nodes r) ∨
    r = retval ∧ FoundBound compare s probe nodes none

/-- The search goes on towards `s`. -/
theorem Bounds.take (ho : TotalPreorder compare) {s : Side} {sub nodes : List P} {x : P}
    {retval r : Option P} (hb : Bounds compare s probe sub (some x) r)
    (hx : NotBeyond compare s x probe) (hmem : x ∈ nodes) (hsub : ∀ z ∈ sub, z ∈ nodes)
    (hbeyond : ∀ z ∈ sub, NotBeyond compare s x z)
    (hother : ∀ z ∈ nodes, z ∈ sub ∨ NotBeyond compare s z x) :
    Bounds compare s probe nodes retval r := by
  rcases hb with ⟨y, rfl, hy, hyp, hbest⟩ | ⟨rfl, hnone⟩
  · refine Or.inl ⟨y, rfl, hsub y hy, hyp, fun z hz hzp => ?_⟩
    rcases hother z hz with hz | hzx
    · exact hbest z hz hzp
    · exact hzx.trans ho (hbeyond y hy)
  · refine Or.inl ⟨x, rfl, hmem, hx, fun z hz hzp => ?_⟩
    rcases hother z hz with hz | hzx
    · exact absurd hzp (hnone z hz)
    · exact hzx

/-- The search goes on to the other side. -/
theorem Bounds.skip {s : Side} {sub nodes : List P} {retval r : Option P}
    (hb : Bounds compare s probe sub retval r) (hsub : ∀ z ∈ sub, z ∈ nodes)
    (hother : ∀ z ∈ nodes, z ∈ sub ∨ ¬NotBeyond compare s z probe) :
    Bounds compare s probe nodes retval r := by
  rcases hb with ⟨y, rfl, hy, hyp, hbest⟩ | ⟨rfl, hnone⟩
  · refine Or.inl ⟨y, rfl, hsub y hy, hyp, fun z hz hzp => ?_⟩
    exact (hother z hz).elim (fun hz => hbest z hz hzp) fun hnot => absurd hzp hnot
  · exact Or.inr ⟨rfl, fun z hz => (hother z hz).elim (hnone z) id⟩

variable [DecidableEq P]

theorem findLoop_spec (ho : TotalPreorder compare) {fuel : ℕ} (ht : Rep sentinel h q t)
    (hs : Sorted compare t.inorder) (hfuel : t.inorder.length < fuel) :
    ∃ r, findLoop sentinel compare probe h fuel (ptr sentinel t) = some r ∧
      Found compare probe t.inorder r := by
  induction t generalizing q fuel with
  | nil =>
    obtain ⟨fuel, rfl⟩ : ∃ k, fuel = k + 1 := ⟨fuel - 1, by simp [inorder] at hfuel; omega⟩
    exact ⟨none, if_pos rfl, by simp [Found, inorder]⟩
  | node c l x r ihl ihr =>
    obtain ⟨fuel, rfl⟩ : ∃ k, fuel = k + 1 := ⟨fuel - 1, by omega⟩
    obtain ⟨hx, -, -, hl, hr, hrl, hrr⟩ := ht
    obtain ⟨hsl, hsr, hlx, hxr⟩ := sorted_node hs
    have hlen : l.inorder.length + (r.inorder.length + 1) < fuel + 1 := by
      simpa [inorder] using hfuel
    have hmem : ∀ z, z ∈ (ColorTree.node c l x r).inorder ↔
        z ∈ l.inorder ∨ z = x ∨ z ∈ r.inorder := by simp [inorder]
    change ∃ res, findLoop sentinel compare probe h (fuel + 1) x = some res ∧ _
    rw [findLoop, if_neg hx, hl, hr]
    simp only
    by_cases hlt : compare probe x < 0
    · rw [if_pos hlt]
      obtain ⟨res, hrun, hfound⟩ := ihl hrl hsl (show _ < fuel by omega)
      refine ⟨res, hrun, hfound.congr (fun z hz => (hmem z).mpr (Or.inl hz)) fun z hz => ?_⟩
      rcases (hmem z).mp hz with hz | rfl | hz
      · exact Or.inl hz
      · exact Or.inr (by omega)
      · have := ho.lt_of_lt_of_le hlt (hxr z hz)
        exact Or.inr (by omega)
    · rw [if_neg hlt]
      by_cases hgt : compare probe x > 0
      · rw [if_pos hgt]
        obtain ⟨res, hrun, hfound⟩ := ihr hrr hsr (show _ < fuel by omega)
        refine ⟨res, hrun, hfound.congr (fun z hz => (hmem z).mpr (Or.inr (Or.inr hz)))
          fun z hz => ?_⟩
        rcases (hmem z).mp hz with hz | rfl | hz
        · have hxp := (ho.lt_iff x probe).mpr hgt
          have := ho.lt_iff z probe
          have := ho.lt_of_le_of_lt (hlx z hz) hxp
          exact Or.inr (by omega)
        · exact Or.inr (by omega)
        · exact Or.inl hz
      · rw [if_neg hgt]
        exact ⟨some x, rfl, (hmem x).mpr (Or.inr (Or.inl rfl)), by omega⟩

theorem findBoundLoop_spec (ho : TotalPreorder compare) {fuel : ℕ} {s : Side} {retval : Option P}
    (ht : Rep sentinel h q t) (hs : Sorted compare t.inorder) (hfuel : t.inorder.length < fuel) :
    ∃ r, findBoundLoop sentinel compare s probe h fuel (ptr sentinel t) retval = some r ∧
      Bounds compare s probe t.inorder retval r := by
  induction t generalizing q fuel retval with
  | nil =>
    obtain ⟨fuel, rfl⟩ : ∃ k, fuel = k + 1 := ⟨fuel - 1, by simp [inorder] at hfuel; omega⟩
    exact ⟨retval, if_pos rfl, Or.inr ⟨rfl, by simp [FoundBound, inorder]⟩⟩
  | node c l x r ihl ihr =>
    obtain ⟨fuel, rfl⟩ : ∃ k, fuel = k + 1 := ⟨fuel - 1, by omega⟩
    obtain ⟨hx, -, -, hl, hr, hrl, hrr⟩ := ht
    obtain ⟨hsl, hsr, hlx, hxr⟩ := sorted_node hs
    have hlen : l.inorder.length + (r.inorder.length + 1) < fuel + 1 := by
      simpa [inorder] using hfuel
    have hmem : ∀ z, z ∈ (ColorTree.node c l x r).inorder ↔
        z ∈ l.inorder ∨ z = x ∨ z ∈ r.inorder := by simp [inorder]
    change ∃ res, findBoundLoop sentinel compare s probe h (fuel + 1) x retval = some res ∧ _
    rw [findBoundLoop, if_neg hx, hl, hr]
    simp only
    by_cases hlt : compare probe x < 0
    · have hafter : ∀ z ∈ r.inorder, compare probe z < 0 := fun z hz =>
        ho.lt_of_lt_of_le hlt (hxr z hz)
      rw [if_pos hlt]
      obtain ⟨res, hrun, hb⟩ := ihl hrl hsl (show _ < fuel by omega)
      refine ⟨res, hrun, ?_⟩
      cases s with
      | left =>
        refine hb.take ho (Int.le_of_lt hlt) ((hmem x).mpr (Or.inr (Or.inl rfl)))
          (fun z hz => (hmem z).mpr (Or.inl hz)) hlx fun z hz => ?_
        rcases (hmem z).mp hz with hz | rfl | hz
        · exact Or.inl hz
        · exact Or.inr (ho.refl z)
        · exact Or.inr (hxr z hz)
      | right =>
        refine hb.skip (fun z hz => (hmem z).mpr (Or.inl hz)) fun z hz => ?_
        rcases (hmem z).mp hz with hz | rfl | hz
        · exact Or.inl hz
        · exact Or.inr (Int.not_le.mpr ((ho.lt_iff _ _).mp hlt))
        · exact Or.inr (Int.not_le.mpr ((ho.lt_iff _ _).mp (hafter z hz)))
    · rw [if_neg hlt]
      by_cases hgt : compare probe x > 0
      · have hxp := (ho.lt_iff x probe).mpr hgt
        have hbefore : ∀ z ∈ l.inorder, compare z probe < 0 := fun z hz =>
          ho.lt_of_le_of_lt (hlx z hz) hxp
        rw [if_pos hgt]
        obtain ⟨res, hrun, hb⟩ := ihr hrr hsr (show _ < fuel by omega)
        refine ⟨res, hrun, ?_⟩
        cases s with
        | right =>
          refine hb.take ho (Int.le_of_lt hxp) ((hmem x).mpr (Or.inr (Or.inl rfl)))
            (fun z hz => (hmem z).mpr (Or.inr (Or.inr hz))) hxr fun z hz => ?_
          rcases (hmem z).mp hz with hz | rfl | hz
          · exact Or.inr (hlx z hz)
          · exact Or.inr (ho.refl z)
          · exact Or.inl hz
        | left =>
          refine hb.skip (fun z hz => (hmem z).mpr (Or.inr (Or.inr hz))) fun z hz => ?_
          rcases (hmem z).mp hz with hz | rfl | hz
          · exact Or.inr (Int.not_le.mpr ((ho.lt_iff _ _).mp (hbefore z hz)))
          · exact Or.inr (Int.not_le.mpr hgt)
          · exact Or.inl hz
      · rw [if_neg hgt]
        have hpx : NotBeyond compare s probe x ∧ NotBeyond compare s x probe := by
          have hle : compare probe x ≤ 0 := by omega
          have hge : compare x probe ≤ 0 := (ho.le_iff x probe).mpr (by omega)
          cases s with
          | left => exact ⟨hge, hle⟩
          | right => exact ⟨hle, hge⟩
        exact ⟨some x, rfl, Or.inl ⟨x, rfl, (hmem x).mpr (Or.inr (Or.inl rfl)), hpx.2,
          fun z _ hz => hz.trans ho hpx.1⟩⟩

/-! ## Succession -/

/-- The node before which the climb of the successor ends. -/
def nextAbove (sentinel : P) : List (Crumb P) → P
  | [] => sentinel
  | ⟨.left, _, x, _⟩ :: _ => x
  | ⟨.right, _, _, _⟩ :: up => nextAbove sentinel up

omit [DecidableEq P] in
theorem nextAbove_eq (path : List (Crumb P)) :
    nextAbove sentinel path = (after path).headD sentinel := by
  induction path with
  | nil => rfl
  | cons crumb up ih =>
    obtain ⟨s, c, x, u⟩ := crumb
    cases s with
    | left => rfl
    | right => exact ih

theorem successorClimb_spec {fuel : ℕ} {path : List (Crumb P)} {x : P}
    (hp : RepPath sentinel h path x) (hx : x ≠ sentinel) (hq : h.parent x = owner sentinel path)
    (hnd : (x :: pathNodes path).Nodup) (hfuel : path.length < fuel) :
    successorClimb h fuel x = some (nextAbove sentinel path) := by
  induction fuel generalizing path x with
  | zero => omega
  | succ fuel ih =>
    rw [successorClimb]
    simp only [hq]
    cases path with
    | nil => exact if_pos (Eq.symm hp)
    | cons crumb up =>
      obtain ⟨s, c, y, u⟩ := crumb
      obtain ⟨hy, -, hyq, hchild, hother, -, hup⟩ := hp
      cases s with
      | left => exact if_pos hchild.symm
      | right =>
        have hleft : h.child .left y = ptr sentinel u := hother
        have hnot : x ≠ h.child .left y := by
          rw [hleft]
          refine Ne.symm (ptr_ne hx fun hmem => (List.nodup_cons.mp hnd).1 ?_)
          simp [pathNodes, hmem]
        have hnd' : (y :: pathNodes up).Nodup := by
          refine (List.nodup_cons.mp hnd).2.sublist ?_
          exact (List.sublist_append_right ..).cons_cons y
        exact (if_neg hnot).trans (@ih up y hup hy hyq hnd' (by simpa using hfuel))

/-- The successor of a node is the next one. -/
theorem nodeSuccessor_spec {fuel : ℕ} {path : List (Crumb P)} {c : Color} {l r : ColorTree P}
    {x : P} (hr : Realizes sentinel callback h (plug path (.node c l x r)))
    (hfuel : (plug path (.node c l x r)).inorder.length < fuel) :
    nodeSuccessor sentinel fuel x h = some ((r.inorder ++ after path).headD sentinel) := by
  have hat := hr.at
  obtain ⟨hx, -, hq, -, hxr, -, hrr⟩ := hat.here
  have hperm := (inorder_plug_perm path (.node c l x r)).trans
    (inorder_join_append_perm .left c l x r _)
  have hlen := hperm.length_eq
  simp only [List.length_cons, List.length_append] at hlen
  unfold nodeSuccessor
  rw [hxr]
  by_cases hnil : r = .nil
  · subst hnil
    have hnd : (x :: pathNodes path).Nodup := by
      refine (hperm.nodup_iff.mp hr.nodup).sublist ?_
      exact ((List.sublist_append_right ..).trans (List.sublist_append_right ..)).cons_cons x
    have hle := length_le_pathNodes path
    have hclimb : successorClimb h fuel x = _ :=
      successorClimb_spec hat.above hx hq hnd (by omega)
    rw [if_pos (by rfl), hclimb, nextAbove_eq]
    rfl
  · obtain ⟨lp, d, y, v, rfl, hbefore, hmin⟩ :=
      @branchMin_spec _ _ _ _ _ fuel _ hrr hnil (by omega)
    rw [if_neg (by rwa [hrr.ptr_eq_sentinel]), hmin, inorder_plug, hbefore]
    rfl

/-- The nodes in the order of the iteration that starts with a node. -/
def traverse (sentinel : P) (fuel : ℕ) (h : Heap P) : ℕ → P → Option (List P)
  | 0, _ => none
  | n + 1, p =>
    if p = sentinel then some []
    else do
      let next ← nodeSuccessor sentinel fuel p h
      let rest ← traverse sentinel fuel h n next
      some (p :: rest)

theorem traverse_spec {fuel n : ℕ} (ht : Realizes sentinel callback h t)
    (hfuel : t.inorder.length < fuel) (l r : List P) (hlr : t.inorder = l ++ r)
    (hn : r.length < n) : traverse sentinel fuel h n (r.headD sentinel) = some r := by
  induction r generalizing l n with
  | nil =>
    obtain ⟨n, rfl⟩ : ∃ k, n = k + 1 := ⟨n - 1, by simp at hn; omega⟩
    rw [List.headD_nil, traverse, if_pos rfl]
  | cons x r ih =>
    obtain ⟨n, rfl⟩ : ∃ k, n = k + 1 := ⟨n - 1, by omega⟩
    have hmem : x ∈ t.inorder := by simp [hlr]
    have hx := ht.links.ne_sentinel x hmem
    have hrest := ih (l ++ [x]) (by simpa using hlr) (n := n) (by simpa using hn)
    obtain ⟨path, c, l', r', rfl⟩ := exists_plug hmem
    have hin : (plug path (.node c l' x r')).inorder =
        (before path ++ l'.inorder) ++ x :: (r'.inorder ++ after path) := by
      simp [inorder_plug, inorder]
    have hsplit : r'.inorder ++ after path = r := by
      have hnd := ht.nodup
      rw [hlr] at hnd hin
      have hdisjoint := List.nodup_append.mp hnd
      have hxl : x ∉ l := fun hmem => hdisjoint.2.2 x hmem x (List.mem_cons_self ..) rfl
      have hxr : x ∉ r := (List.nodup_cons.mp hdisjoint.2.1).1
      exact ((List.append_cons_inj_of_notMem hxl hxr).mp hin).2.2.symm
    rw [List.headD_cons, traverse, if_neg hx, nodeSuccessor_spec ht hfuel, hsplit]
    simp only [Option.bind_eq_bind, Option.bind_some, hrest]

theorem min_spec {fuel : ℕ} (ht : Realizes sentinel callback h t)
    (hfuel : t.inorder.length < fuel) :
    min sentinel fuel h = some (t.inorder.headD sentinel) := by
  obtain ⟨fuel, rfl⟩ : ∃ k, fuel = k + 1 := ⟨fuel - 1, by omega⟩
  rw [min, branchMin, ht.root]
  by_cases hnil : t = .nil
  · subst hnil
    exact if_pos rfl
  · obtain ⟨lp, d, y, v, rfl, hbefore, hmin⟩ :=
      @branchMin_spec _ _ _ _ _ fuel _ ht.links hnil (by omega)
    rw [if_neg (by rwa [ht.links.ptr_eq_sentinel]), hmin, inorder_plug, hbefore]
    rfl

omit [DecidableEq P] in
theorem Found.perm {nodes nodes' : List P} {r : Option P} (hperm : nodes.Perm nodes')
    (hfound : Found compare probe nodes r) : Found compare probe nodes' r :=
  hfound.congr (fun _ hz => hperm.mem_iff.mp hz) fun _ hz => Or.inl (hperm.mem_iff.mpr hz)

omit [DecidableEq P] in
theorem FoundBound.perm {s : Side} {nodes nodes' : List P} {r : Option P}
    (hperm : nodes.Perm nodes') (hfound : FoundBound compare s probe nodes r) :
    FoundBound compare s probe nodes' r := by
  cases r with
  | none => exact fun x hx => hfound x (hperm.mem_iff.mpr hx)
  | some x =>
    exact ⟨hperm.mem_iff.mp hfound.1, hfound.2.1, fun y hy => hfound.2.2 y (hperm.mem_iff.mpr hy)⟩

/-- A bounded search of the whole tree. -/
theorem findBound_spec (ho : TotalPreorder compare) {fuel : ℕ} {s : Side}
    (ht : Realizes sentinel callback h t) (hs : Sorted compare t.inorder)
    (hfuel : t.inorder.length < fuel) :
    ∃ r, findBoundLoop sentinel compare s probe h fuel (root sentinel h) none = some r ∧
      FoundBound compare s probe t.inorder r := by
  obtain ⟨r, hrun, hb⟩ := findBoundLoop_spec ho (s := s) ht.links hs hfuel
  have hroot : root sentinel h = ptr sentinel t := ht.root
  refine ⟨r, hroot ▸ hrun, ?_⟩
  rcases hb with ⟨x, -, hfound⟩ | ⟨rfl, hnone⟩
  · exact hfound
  · exact hnone

/-- In every reachable memory the searches find what they are to find for every probe, and the
iteration visits every node in order and ends at the sentinel. -/
theorem reachable_search (ho : TotalPreorder compare) {present : List P}
    (hr : Reachable sentinel callback compare h present) :
    ∃ nodes, nodes.Perm present ∧ Holds sentinel callback compare h nodes ∧
      ∀ fuel, present.length < fuel →
        (∀ probe, ∃ r, find sentinel compare fuel probe h = some r ∧
          Found compare probe present r) ∧
        (∀ probe, ∃ r, findLessOrEqual sentinel compare fuel probe h = some r ∧
          FoundBound compare .right probe present r) ∧
        (∀ probe, ∃ r, findGreaterOrEqual sentinel compare fuel probe h = some r ∧
          FoundBound compare .left probe present r) ∧
        ∃ first, min sentinel fuel h = some first ∧
          traverse sentinel fuel h fuel first = some nodes := by
  obtain ⟨nodes, hperm, hh⟩ := hr.holds ho
  refine ⟨nodes, hperm, hh, fun fuel hfuel => ?_⟩
  obtain ⟨⟨t, m, ht, -, rfl⟩, hs⟩ := hh
  rw [← hperm.length_eq] at hfuel
  refine ⟨fun probe => ?_, fun probe => ?_, fun probe => ?_, ?_⟩
  · obtain ⟨r, hrun, hfound⟩ := findLoop_spec ho ht.links hs hfuel
    have hroot : root sentinel h = ptr sentinel t := ht.root
    exact ⟨r, by rwa [find, hroot], hfound.perm hperm⟩
  · obtain ⟨r, hrun, hfound⟩ := findBound_spec (s := .right) ho ht hs hfuel
    exact ⟨r, hrun, hfound.perm hperm⟩
  · obtain ⟨r, hrun, hfound⟩ := findBound_spec (s := .left) ho ht hs hfuel
    exact ⟨r, hrun, hfound.perm hperm⟩
  · exact ⟨_, min_spec ht hfuel, traverse_spec ht hfuel [] t.inorder rfl hfuel⟩

theorem reachable_search_sample : ∃ h nodes, nodes.Perm [2, 6] ∧
    Holds 0 1 numberCompare h nodes ∧
      ∀ fuel, 2 < fuel →
        (∀ probe, ∃ r, find 0 numberCompare fuel probe h = some r ∧
          Found numberCompare probe [2, 6] r) ∧
        (∀ probe, ∃ r, findLessOrEqual 0 numberCompare fuel probe h = some r ∧
          FoundBound numberCompare .right probe [2, 6] r) ∧
        (∀ probe, ∃ r, findGreaterOrEqual 0 numberCompare fuel probe h = some r ∧
          FoundBound numberCompare .left probe [2, 6] r) ∧
        ∃ first, min 0 fuel h = some first ∧ traverse 0 fuel h fuel first = some nodes := by
  obtain ⟨h, hr⟩ := reachable_sample
  exact ⟨h, reachable_search numberCompare_preorder hr⟩

/-! ## Rounds -/

/-- The rounds of a search are those of a path: at most two for each black node, and one more if
the root is red. -/
theorem search_rounds {s : Side} {c : Color} {n fuel fuel' : ℕ} {retval : Option P}
    (hb : RB t c n) (ht : Rep sentinel h q t) (hfuel : 2 * n < fuel)
    (hred : c = .red → 2 * n + 1 < fuel) (hle : fuel ≤ fuel') :
    findLoop sentinel compare probe h fuel (ptr sentinel t) =
        findLoop sentinel compare probe h fuel' (ptr sentinel t) ∧
      findBoundLoop sentinel compare s probe h fuel (ptr sentinel t) retval =
        findBoundLoop sentinel compare s probe h fuel' (ptr sentinel t) retval := by
  induction hb generalizing q fuel fuel' retval with
  | nil =>
    obtain ⟨fuel, rfl⟩ : ∃ k, fuel = k + 1 := ⟨fuel - 1, by omega⟩
    obtain ⟨fuel', rfl⟩ : ∃ k, fuel' = k + 1 := ⟨fuel' - 1, by omega⟩
    simp [findLoop, findBoundLoop, ptr]
  | red _ _ ihl ihr | black _ _ ihl ihr =>
    obtain ⟨fuel, rfl⟩ : ∃ k, fuel = k + 1 := ⟨fuel - 1, by omega⟩
    obtain ⟨fuel', rfl⟩ : ∃ k, fuel' = k + 1 := ⟨fuel' - 1, by omega⟩
    obtain ⟨hx, -, -, hl, hr, hrl, hrr⟩ := ht
    have hleft := fun retval => @ihl _ fuel fuel' retval hrl (by grind) (by grind) (by omega)
    have hright := fun retval => @ihr _ fuel fuel' retval hrr (by grind) (by grind) (by omega)
    rw [ptr]
    simp only [findLoop, findBoundLoop, if_neg hx, hl, hr, (hleft none).1, (hright none).1, hleft,
      hright, and_self]

/-- The searches find what they are to find for every probe. -/
def Searches (sentinel : P) (compare : P → P → ℤ) (fuel : ℕ) (h : Heap P) (present : List P) :
    Prop :=
  ∀ probe, (∃ r, find sentinel compare fuel probe h = some r ∧ Found compare probe present r) ∧
    (∃ r, findLessOrEqual sentinel compare fuel probe h = some r ∧
      FoundBound compare .right probe present r) ∧
    ∃ r, findGreaterOrEqual sentinel compare fuel probe h = some r ∧
      FoundBound compare .left probe present r

/-- In every reachable memory the searches end after at most `2 * log₂ (n + 1) + 1` rounds. -/
theorem reachable_search_rounds (ho : TotalPreorder compare) {present : List P} {fuel : ℕ}
    (hr : Reachable sentinel callback compare h present)
    (hfuel : 2 * Nat.log 2 (present.length + 1) < fuel) :
    Searches sentinel compare fuel h present := by
  obtain ⟨nodes, hperm, ⟨⟨t, n, ht, hb, rfl⟩, hs⟩⟩ := hr.holds ho
  have hroot : root sentinel h = ptr sentinel t := ht.root
  have hn := Nat.le_log_of_pow_le (by decide) (hperm.length_eq ▸ hb.pow_le_length)
  have hmore : t.inorder.length < fuel + present.length + 1 := by
    rw [hperm.length_eq]
    omega
  have hrounds := fun probe s => @search_rounds P sentinel compare h probe _ t _ s _ _ fuel _ none
    hb ht.links (by omega) nofun (by omega : fuel ≤ fuel + present.length + 1)
  intro probe
  refine ⟨?_, ?_, ?_⟩
  · obtain ⟨r, hrun, hfound⟩ := @findLoop_spec _ _ _ _ probe _ _ _ ho _ ht.links hs hmore
    exact ⟨r, by rwa [find, hroot, (hrounds probe .left).1], hfound.perm hperm⟩
  · obtain ⟨r, hrun, hfound⟩ := @findBound_spec _ _ _ _ _ probe _ _ ho _ .right ht hs hmore
    exact ⟨r, by rwa [findLessOrEqual, hroot, (hrounds probe .right).2, ← hroot],
      hfound.perm hperm⟩
  · obtain ⟨r, hrun, hfound⟩ := @findBound_spec _ _ _ _ _ probe _ _ ho _ .left ht hs hmore
    exact ⟨r, by rwa [findGreaterOrEqual, hroot, (hrounds probe .left).2, ← hroot],
      hfound.perm hperm⟩

theorem reachable_search_rounds_sample : ∃ h, Searches 0 numberCompare 3 h [2, 6] := by
  obtain ⟨h, hr⟩ := reachable_sample
  exact ⟨h, reachable_search_rounds numberCompare_preorder hr (by decide)⟩

end Njs.Rbtree
