import Njs.Rbtree.Runs

/-!
# Destruction

`njs_rbtree_destroy_next` and the loop of `njs_mp_destroy`, on a memory that keeps the nodes
that were returned: a field of such a node can be neither read nor written.
-/

namespace Njs.Rbtree

open Njs.Lib

variable {P : Type} [DecidableEq P]

/-- A memory with the nodes that are gone. -/
structure Memory (P : Type) where
  heap : Heap P
  returned : List P

namespace Memory

/-- Reads a field of a node. -/
def read (field : Heap P → P → P) (p : P) (m : Memory P) : Option P :=
  if p ∈ m.returned then none else some (field m.heap p)

/-- Writes a field of the node `p`. -/
def write (p : P) (set : Heap P → Heap P) (m : Memory P) : Option (Memory P) :=
  if p ∈ m.returned then none else some { m with heap := set m.heap }

end Memory

section Code

variable (sentinel : P)

/-- The search of `njs_rbtree_destroy_next` for the leftmost node. -/
def destroyLeftmost (m : Memory P) : ℕ → P → Option P
  | 0, _ => none
  | fuel + 1, node => do
    let left ← m.read (fun h => h.child .left) node
    if left = sentinel then some node else destroyLeftmost m fuel left

/-- `njs_rbtree_destroy_next`: the node that it returns, and the next start node. -/
def destroyNext (fuel : ℕ) (next : P) (m : Memory P) : Option (P × P × Memory P) := do
  let node ← destroyLeftmost sentinel m fuel next
  let subst ← m.read (fun h => h.child .right) node
  let parent ← m.read (fun h => h.parent) node
  let m ← m.write parent (Heap.setChild .left parent subst)
  let m ← m.write subst (Heap.setParent subst parent)
  some (node, if subst = sentinel then parent else subst, m)

/-- The loop of `njs_mp_destroy`: the nodes in the order in which they are freed. -/
def destroyAll (fuel : ℕ) : ℕ → P → Memory P → Option (List P)
  | 0, _, _ => none
  | n + 1, next, m =>
    if next = sentinel then some []
    else do
      let (node, next, m) ← destroyNext sentinel fuel next m
      let rest ← destroyAll fuel n next { m with returned := node :: m.returned }
      some (node :: rest)

end Code

open Njs.Lib.ColorTree

variable {sentinel callback : P} {compare : P → P → ℤ} {m : Memory P} {next : P}
  {nodes : List P} {t : ColorTree P}

/-! ## What is left -/

/-- The nodes that are left, from left to right. The start node is the root of a subtree on the
left edge, and only when nothing is left it is the sentinel. -/
def Remaining (sentinel callback : P) (m : Memory P) (next : P) (nodes : List P) : Prop :=
  ∃ path t, Realizes sentinel callback m.heap (plug path t) ∧ before path = [] ∧
    (t = .nil → path = []) ∧ next = ptr sentinel t ∧ nodes = (plug path t).inorder ∧
    ∀ z ∈ m.returned, z ∉ nodes ∧ z ≠ sentinel

omit [DecidableEq P] in
/-- A path with nothing before its end goes left. -/
theorem endSide_eq_left {path : List (Crumb P)} (h : before path = []) : endSide path = .left := by
  cases path with
  | nil => rfl
  | cons crumb up =>
    obtain ⟨s, c, x, u⟩ := crumb
    cases s with
    | left => rfl
    | right => simp [before] at h

theorem destroyLeftmost_spec {fuel : ℕ} {q : P} (ht : Rep sentinel m.heap q t) (hne : t ≠ .nil)
    (hlive : ∀ z ∈ t.inorder, z ∉ m.returned) (hfuel : t.inorder.length ≤ fuel) :
    ∃ lp d y v, t = plug lp (.node d .nil y v) ∧ before lp = [] ∧
      destroyLeftmost sentinel m fuel (ptr sentinel t) = some y := by
  induction fuel generalizing t q with
  | zero =>
    cases t with
    | nil => exact absurd rfl hne
    | node d l y v => simp [inorder] at hfuel
  | succ fuel ih =>
    obtain ⟨d, l, y, v, rfl⟩ := exists_join .left hne
    obtain ⟨hy, -, -, hl, -, hrl, -⟩ := ht
    have hread : m.read (fun h => h.child .left) y = some (ptr sentinel l) := by
      rw [Memory.read, if_neg (hlive y (by simp [join, inorder])), hl]
    rw [ptr_join, destroyLeftmost, hread]
    simp only [Option.bind_eq_bind, Option.bind_some]
    by_cases hnil : l = .nil
    · subst hnil
      exact ⟨[], d, y, v, rfl, rfl, if_pos rfl⟩
    · rw [if_neg (by rwa [hrl.ptr_eq_sentinel])]
      have hlen : l.inorder.length ≤ fuel := by
        have : l.inorder.length + (v.inorder.length + 1) ≤ fuel + 1 := by
          simpa [join, inorder] using hfuel
        omega
      obtain ⟨lp, d', y', v', hl', hbefore, hrun⟩ :=
        ih hrl hnil (fun z hz => hlive z (by simp [join, inorder, hz])) hlen
      refine ⟨lp ++ [⟨.left, d, y, v⟩], d', y', v', ?_, ?_, hrun⟩
      · rw [plug_append, ← hl']
        rfl
      · rw [before_append, hbefore]
        rfl

/-- One call takes out the first of the nodes that are left. -/
theorem destroyNext_spec {fuel : ℕ} (hrem : Remaining sentinel callback m next nodes)
    (hnext : next ≠ sentinel) (hfuel : nodes.length ≤ fuel) :
    ∃ x rest next' m', nodes = x :: rest ∧
      destroyNext sentinel fuel next m = some (x, next', m') ∧
      Remaining sentinel callback { m' with returned := x :: m'.returned } next' rest := by
  obtain ⟨path, t, hr, hbefore, hnil, rfl, rfl, hlive⟩ := hrem
  have hne : t ≠ .nil := by
    rintro rfl
    exact hnext rfl
  have hlen : t.inorder.length ≤ fuel := by
    rw [inorder_plug, List.length_append, List.length_append] at hfuel
    omega
  have hin : ∀ z ∈ t.inorder, z ∈ (plug path t).inorder := fun z hz => by
    simp [inorder_plug, hz]
  obtain ⟨lp, d, y, v, rfl, hlp, hleft⟩ := destroyLeftmost_spec hr.at.here hne
    (fun z hz hz' => (hlive z hz').1 (hin z hz)) hlen
  rw [← plug_append] at hr hlive ⊢
  have hbefore' : before (lp ++ path) = [] := by rw [before_append, hbefore, hlp]; rfl
  obtain ⟨hyne, -, hyq, -, hyv⟩ := Realizes.node (s := .left) hr
  have hyv : m.heap.child .right y = ptr sentinel v := hyv
  obtain ⟨hreal, -⟩ := Realizes.replaced (s := .left) hr
  have hlive' : ∀ z, z = sentinel ∨ z ∈ (plug (lp ++ path) (.node d .nil y v)).inorder →
      z ∉ m.returned := by
    rintro z (rfl | hz) hmem
    · exact (hlive z hmem).2 rfl
    · exact (hlive z hmem).1 hz
  have hperm := (inorder_plug_perm (lp ++ path) (.node d .nil y v)).trans
    (inorder_join_append_perm .left d .nil y v _)
  have hylive : y ∉ m.returned := hlive' y (Or.inr (hperm.mem_iff.mpr (List.mem_cons_self ..)))
  have hplive : owner sentinel (lp ++ path) ∉ m.returned := by
    refine hlive' _ ?_
    rcases owner_eq_or_mem (lp ++ path) with ⟨-, hnil⟩ | hown
    · exact Or.inl hnil
    · exact Or.inr (hperm.mem_iff.mpr (by simp [hown]))
  have hvlive : ptr sentinel v ∉ m.returned := by
    refine hlive' _ ?_
    rcases ptr_eq_or_mem v with ⟨-, hnil⟩ | hv
    · exact Or.inl hnil
    · exact Or.inr (hperm.mem_iff.mpr (by simp [hv]))
  have habove : RepPath sentinel m.heap (lp ++ path) y := hr.at.above
  have hside : sideOf y (owner sentinel (lp ++ path)) m.heap = .left := by
    rw [sideOf_eq habove hyne (hr.at.not_mem (by simp [inorder]))]
    exact endSide_eq_left hbefore'
  have hrelink : (m.heap.setChild .left (owner sentinel (lp ++ path)) (ptr sentinel v)).setParent
      (ptr sentinel v) (owner sentinel (lp ++ path)) = parentRelink (ptr sentinel v) y m.heap := by
    unfold parentRelink
    unfold sideOf at hside
    simp only [hyq, Heap.setParent_child, hside]
    rfl
  have hnodes : (plug (lp ++ path) (.node d .nil y v)).inorder =
      y :: (plug (lp ++ path) v).inorder := by
    simp [inorder_plug, hbefore', inorder]
  refine ⟨y, (plug (lp ++ path) v).inorder,
    if ptr sentinel v = sentinel then owner sentinel (lp ++ path) else ptr sentinel v,
    ⟨parentRelink (ptr sentinel v) y m.heap, m.returned⟩, hnodes, ?_, ?_⟩
  · rw [destroyNext, hleft, ← hrelink]
    simp only [Option.bind_eq_bind, Option.bind_some, Memory.read, if_neg hylive, Memory.write,
      hyv, hyq, if_neg hplive, if_neg hvlive]
  · have hgone : ∀ z ∈ y :: m.returned, z ∉ (plug (lp ++ path) v).inorder ∧ z ≠ sentinel := by
      have hnd := List.nodup_cons.mp (hnodes ▸ hr.nodup)
      intro z hz
      rcases List.mem_cons.mp hz with rfl | hz
      · exact ⟨hnd.1, hyne⟩
      · refine ⟨fun hzv => (hlive z hz).1 ?_, (hlive z hz).2⟩
        rw [hnodes]
        exact List.mem_cons_of_mem y hzv
    by_cases hvnil : v = .nil
    · subst hvnil
      rw [if_pos (by rfl)]
      cases hpath : lp ++ path with
      | nil =>
        rw [hpath] at hreal hgone
        exact ⟨[], .nil, hreal, rfl, fun _ => rfl, rfl, rfl, hgone⟩
      | cons crumb up =>
        obtain ⟨s, c, x, u⟩ := crumb
        rw [hpath] at hreal hgone hbefore'
        obtain rfl : s = .left := endSide_eq_left hbefore'
        exact ⟨up, .node c .nil x u, hreal, hbefore', by simp, rfl, rfl, hgone⟩
    · have hvptr : ptr sentinel v ≠ sentinel := by
        rwa [Ne, hreal.at.here.ptr_eq_sentinel]
      rw [if_neg hvptr]
      exact ⟨_, v, hreal, hbefore', fun h => absurd h hvnil, rfl, rfl, hgone⟩

/-! ## The whole traversal -/

theorem destroyAll_spec {fuel n : ℕ} (hrem : Remaining sentinel callback m next nodes)
    (hfuel : nodes.length ≤ fuel) (hn : nodes.length < n) :
    destroyAll sentinel fuel n next m = some nodes := by
  induction n generalizing m next nodes with
  | zero => omega
  | succ n ih =>
    rw [destroyAll]
    by_cases hnext : next = sentinel
    · obtain ⟨path, t, hr, -, hnil, rfl, rfl, -⟩ := hrem
      obtain rfl := (hr.at.here.ptr_eq_sentinel).mp hnext
      obtain rfl := hnil rfl
      exact if_pos hnext
    · obtain ⟨x, rest, next', m', rfl, hrun, hrem'⟩ := destroyNext_spec hrem hnext hfuel
      simp only [List.length_cons] at hfuel hn
      have hrest := ih hrem' (by omega) (by omega)
      rw [if_neg hnext, hrun]
      simp only [Option.bind_eq_bind, Option.bind_some, hrest]

/-- The destructive traversal of a tree ends, returns every node once, and touches no node that
was returned before: with the accesses to these barred, it gives the nodes from left to right. -/
theorem destroy_returns_all {h : Heap P} (ht : Realizes sentinel callback h t) {fuel : ℕ}
    (hfuel : t.inorder.length < fuel) :
    destroyAll sentinel fuel fuel (root sentinel h) ⟨h, []⟩ = some t.inorder ∧
      t.inorder.Nodup := by
  have hroot : root sentinel h = ptr sentinel t := ht.root
  refine ⟨@destroyAll_spec _ _ _ callback _ _ _ _ _ ?_ (Nat.le_of_lt hfuel) hfuel, ht.nodup⟩
  exact ⟨[], t, ht, rfl, fun _ => rfl, hroot, rfl, by simp⟩

theorem destroy_returns_all_sample :
    ∃ h t, Realizes 0 1 h t ∧ ∀ fuel, t.inorder.length < fuel →
      destroyAll 0 fuel fuel (root 0 h) ⟨h, []⟩ = some t.inorder ∧ t.inorder.Nodup := by
  obtain ⟨h, hr⟩ := reachable_sample
  obtain ⟨nodes, -, ⟨t, m, ht, -, -⟩, -⟩ := hr.holds numberCompare_preorder
  exact ⟨h, t, ht, fun fuel hfuel => destroy_returns_all ht hfuel⟩

end Njs.Rbtree
