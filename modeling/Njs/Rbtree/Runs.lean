import Njs.Rbtree.Insert
import Njs.Rbtree.Delete

/-!
# Runs of insertions and deletions

Every memory that a caller reaches from an empty tree, by insertions of nodes that are not in
the tree and deletions of nodes that are, holds a red-black tree of exactly these nodes. The
results do not depend on the fuel.
-/

namespace Njs.Rbtree

open Njs.Lib Njs.Lib.ColorTree

variable {P : Type} [DecidableEq P] {sentinel callback : P} {compare : P → P → ℤ}
  {h h' : Heap P}

/-! ## Fuel -/

theorem insertDescend_mono {fuel fuel' : ℕ} {x node : P} {child : P × Side} {r : P × P × Side}
    (hle : fuel ≤ fuel') (hrun : insertDescend sentinel compare x h fuel node child = some r) :
    insertDescend sentinel compare x h fuel' node child = some r := by
  induction fuel generalizing fuel' node child with
  | zero => cases hrun
  | succ fuel ih =>
    obtain ⟨fuel', rfl⟩ : ∃ k, fuel' = k + 1 := ⟨fuel' - 1, by omega⟩
    rw [insertDescend] at hrun ⊢
    split at hrun
    · rename_i heq
      rwa [if_pos heq]
    · rename_i hne
      rw [if_neg hne]
      exact ih (by omega) hrun

theorem insertFixup_mono {fuel fuel' : ℕ} {node : P} (hle : fuel ≤ fuel')
    (hrun : insertFixup fuel node h = some h') : insertFixup fuel' node h = some h' := by
  induction fuel generalizing fuel' node h with
  | zero => cases hrun
  | succ fuel ih =>
    obtain ⟨fuel', rfl⟩ : ∃ k, fuel' = k + 1 := ⟨fuel' - 1, by omega⟩
    rw [insertFixup] at hrun ⊢
    simp only at hrun ⊢
    split at hrun
    · rename_i hblack
      rwa [if_pos hblack]
    · rename_i hred
      rw [if_neg hred]
      split at hrun
      · rename_i huncle
        rwa [if_pos huncle]
      · rename_i huncle
        rw [if_neg huncle]
        exact ih (by omega) hrun

theorem insert_mono {fuel fuel' : ℕ} {x : P} (hle : fuel ≤ fuel')
    (hrun : insert sentinel compare fuel x h = some h') :
    insert sentinel compare fuel' x h = some h' := by
  simp only [insert, Option.bind_eq_bind, Option.bind_eq_some_iff] at hrun ⊢
  obtain ⟨⟨node, child⟩, hdescend, h₁, hfix, hh⟩ := hrun
  exact ⟨(node, child), insertDescend_mono hle hdescend, h₁, insertFixup_mono hle hfix, hh⟩

theorem branchMin_mono {fuel fuel' : ℕ} {node r : P} (hle : fuel ≤ fuel')
    (hrun : branchMin sentinel h fuel node = some r) :
    branchMin sentinel h fuel' node = some r := by
  induction fuel generalizing fuel' node with
  | zero => cases hrun
  | succ fuel ih =>
    obtain ⟨fuel', rfl⟩ : ∃ k, fuel' = k + 1 := ⟨fuel' - 1, by omega⟩
    rw [branchMin] at hrun ⊢
    split at hrun
    · rename_i heq
      rwa [if_pos heq]
    · rename_i hne
      rw [if_neg hne]
      exact ih (by omega) hrun

theorem deleteFixup_mono {fuel fuel' : ℕ} {node : P} (hle : fuel ≤ fuel')
    (hrun : deleteFixup sentinel fuel node h = some h') :
    deleteFixup sentinel fuel' node h = some h' := by
  induction fuel generalizing fuel' node h with
  | zero => cases hrun
  | succ fuel ih =>
    obtain ⟨fuel', rfl⟩ : ∃ k, fuel' = k + 1 := ⟨fuel' - 1, by omega⟩
    rw [deleteFixup] at hrun ⊢
    split at hrun
    · rename_i hloop
      rw [if_pos hloop]
      simp only at hrun ⊢
      split at hrun
      · exact ih (by omega) hrun
      · exact hrun
    · rename_i hloop
      rwa [if_neg hloop]

theorem delete_mono {fuel fuel' : ℕ} {x : P} (hle : fuel ≤ fuel')
    (hrun : delete sentinel fuel x h = some h') : delete sentinel fuel' x h = some h' := by
  obtain ⟨⟨subst, child⟩, hnodes, hend⟩ := Option.bind_eq_some_iff.mp hrun
  refine Option.bind_eq_some_iff.mpr ⟨(subst, child), ?_, ?_⟩
  · unfold deleteNodes at hnodes ⊢
    split at hnodes
    · rename_i hl
      rwa [if_pos hl]
    · rename_i hl
      rw [if_neg hl]
      split at hnodes
      · rename_i hr
        rwa [if_pos hr]
      · rename_i hr
        rw [if_neg hr]
        obtain ⟨r, hmin, hr⟩ := Option.bind_eq_some_iff.mp hnodes
        exact Option.bind_eq_some_iff.mpr ⟨r, branchMin_mono hle hmin, hr⟩
  · simp only at hend ⊢
    split at hend
    · rename_i hblack
      rw [if_pos hblack]
      exact deleteFixup_mono hle hend
    · rename_i hred
      rwa [if_neg hred]

/-! ## Reachable trees -/

/-- The memories that a caller reaches, with the nodes that it has put into the tree. -/
inductive Reachable (sentinel callback : P) (compare : P → P → ℤ) : Heap P → List P → Prop
  | init (h : Heap P) : Reachable sentinel callback compare (init sentinel callback h) []
  | insert {h h' : Heap P} {present : List P} {x : P} {fuel : ℕ}
    (hreach : Reachable sentinel callback compare h present) (hx : x ≠ sentinel)
    (hfresh : x ∉ present) (hrun : insert sentinel compare fuel x h = some h') :
    Reachable sentinel callback compare h' (x :: present)
  | delete {h h' : Heap P} {present : List P} {x : P} {fuel : ℕ}
    (hreach : Reachable sentinel callback compare h present) (hx : x ∈ present)
    (hrun : delete sentinel fuel x h = some h') :
    Reachable sentinel callback compare h' (present.erase x)

/-- The memory holds a red-black tree with these nodes from left to right, in order. -/
structure Holds (sentinel callback : P) (compare : P → P → ℤ) (h : Heap P) (nodes : List P) :
    Prop where
  mended : Mended sentinel callback h nodes
  sorted : Sorted compare nodes

omit [DecidableEq P] in
theorem Holds.nodup {nodes : List P} (hh : Holds sentinel callback compare h nodes) :
    nodes.Nodup := by
  obtain ⟨t, m, ht, -, rfl⟩ := hh.mended
  exact ht.nodup

theorem holds_init (h : Heap P) :
    Holds sentinel callback compare (init sentinel callback h) [] := by
  refine ⟨⟨.nil, 0, ⟨?_, trivial, List.nodup_nil, ?_, ?_⟩, .nil, rfl⟩, List.Pairwise.nil⟩
  · simp [init, Heap.setChild_child, ptr]
  · simp [init, Heap.setColor_color]
  · simp [init, Heap.setChild_child]

/-- One insertion. -/
theorem Holds.insert (ho : TotalPreorder compare) {nodes : List P} {x : P}
    (hh : Holds sentinel callback compare h nodes) (hx : x ≠ sentinel) (hfresh : x ∉ nodes) :
    ∃ h' l r, nodes = l ++ r ∧ Holds sentinel callback compare h' (l ++ x :: r) ∧
      ∀ fuel, nodes.length < fuel → Rbtree.insert sentinel compare fuel x h = some h' := by
  obtain ⟨⟨t, m, ht, hm, rfl⟩, hsorted⟩ := hh
  obtain ⟨h', t', m', path, hrun, ht', hm', hlead, hin, hin'⟩ :=
    insert_spec ht hm hx hfresh (Nat.lt_succ_self _)
  refine ⟨h', before path, after path, hin, ⟨⟨t', m', ht', hm', hin'⟩, ?_⟩, fun fuel hfuel => ?_⟩
  · exact hlead.sorted_insert ho (hin ▸ hsorted)
  · exact insert_mono hfuel hrun

/-- One deletion. -/
theorem Holds.delete {nodes : List P} {x : P} (hh : Holds sentinel callback compare h nodes)
    (hx : x ∈ nodes) :
    ∃ h' l r, nodes = l ++ x :: r ∧ Holds sentinel callback compare h' (l ++ r) ∧
      ∀ fuel, nodes.length + 1 < fuel → Rbtree.delete sentinel fuel x h = some h' := by
  obtain ⟨⟨t, m, ht, hm, rfl⟩, hsorted⟩ := hh
  obtain ⟨path, c, l, r, rfl⟩ := exists_plug hx
  obtain ⟨h', hrun, hmended⟩ := delete_spec ht hm (Nat.lt_succ_self _)
  have hin : (plug path (.node c l x r)).inorder =
      (before path ++ l.inorder) ++ x :: (r.inorder ++ after path) := by
    simp [inorder_plug, inorder]
  have hin' : before path ++ (l.inorder ++ r.inorder) ++ after path =
      (before path ++ l.inorder) ++ (r.inorder ++ after path) := by
    simp
  rw [hin'] at hmended
  refine ⟨h', _, _, hin, ⟨hmended, hsorted.sublist ?_⟩, fun fuel hfuel => delete_mono hfuel hrun⟩
  rw [hin]
  exact (List.sublist_cons_self ..).append_left _

/-- Every reachable memory holds a tree of the nodes that are present. -/
theorem Reachable.holds (ho : TotalPreorder compare) {present : List P}
    (hr : Reachable sentinel callback compare h present) :
    ∃ nodes, nodes.Perm present ∧ Holds sentinel callback compare h nodes := by
  induction hr with
  | init h => exact ⟨[], .refl _, holds_init h⟩
  | @insert h h' present x fuel _ hx hfresh hrun ih =>
    obtain ⟨nodes, hperm, hh⟩ := ih
    obtain ⟨h₁, l, r, rfl, hh', hrun'⟩ := hh.insert ho hx fun hmem =>
      hfresh (hperm.mem_iff.mp hmem)
    have hmax := insert_mono (Nat.le_max_left fuel ((l ++ r).length + 1)) hrun
    obtain rfl := Option.some.inj (hmax.symm.trans (hrun' _ (Nat.le_max_right ..)))
    exact ⟨_, List.perm_middle.trans (hperm.cons x), hh'⟩
  | @delete h h' present x fuel _ hx hrun ih =>
    obtain ⟨nodes, hperm, hh⟩ := ih
    obtain ⟨h₁, l, r, rfl, hh', hrun'⟩ := hh.delete (hperm.mem_iff.mpr hx)
    have hmax := delete_mono (Nat.le_max_left fuel ((l ++ x :: r).length + 2)) hrun
    obtain rfl := Option.some.inj (hmax.symm.trans (hrun' _ (Nat.le_max_right ..)))
    refine ⟨_, ?_, hh'⟩
    have hcons : (x :: (l ++ r)).Perm present := List.perm_middle.symm.trans hperm
    simpa using hcons.erase x

/-- In every run, each step keeps a red-black tree that is in order: an insertion adds the node
to the nodes from left to right, and a deletion takes it out of them. -/
theorem reachable_redBlack (ho : TotalPreorder compare) {present : List P}
    (hr : Reachable sentinel callback compare h present) :
    ∃ nodes, nodes.Perm present ∧ Holds sentinel callback compare h nodes ∧
      (∀ x, x ≠ sentinel → x ∉ present →
        ∃ h' l r, nodes = l ++ r ∧ Holds sentinel callback compare h' (l ++ x :: r) ∧
          ∀ fuel, present.length < fuel → insert sentinel compare fuel x h = some h') ∧
      (∀ x ∈ present,
        ∃ h' l r, nodes = l ++ x :: r ∧ Holds sentinel callback compare h' (l ++ r) ∧
          ∀ fuel, present.length + 1 < fuel → delete sentinel fuel x h = some h') := by
  obtain ⟨nodes, hperm, hh⟩ := hr.holds ho
  refine ⟨nodes, hperm, hh, fun x hx hfresh => ?_, fun x hx => ?_⟩
  · rw [← hperm.length_eq]
    exact hh.insert ho hx fun hmem => hfresh (hperm.mem_iff.mp hmem)
  · rw [← hperm.length_eq]
    exact hh.delete (hperm.mem_iff.mpr hx)

/-- The comparison of two numbers. -/
def numberCompare (a b : ℕ) : ℤ := a - b

theorem numberCompare_preorder : TotalPreorder numberCompare := by
  constructor <;> intros <;> simp only [numberCompare] at * <;> omega

/-- A memory before any operation. -/
def blank : Heap ℕ := ⟨fun _ _ => 0, fun _ => 0, fun _ => .black⟩

theorem reachable_sample : ∃ h, Reachable 0 1 numberCompare h [2, 6] := by
  have hrun : (((insert 0 numberCompare 5 4 (init 0 1 blank)).bind (insert 0 numberCompare 5
    6)).bind
      (insert 0 numberCompare 5 2)).bind (delete 0 5 4) ≠ none := by
    rw [Option.ne_none_iff_isSome]
    decide
  obtain ⟨h, hrun⟩ := Option.ne_none_iff_exists'.mp hrun
  obtain ⟨h₃, hrun, hdelete⟩ := Option.bind_eq_some_iff.mp hrun
  obtain ⟨h₂, hrun, hinsert₃⟩ := Option.bind_eq_some_iff.mp hrun
  obtain ⟨h₁, hinsert₁, hinsert₂⟩ := Option.bind_eq_some_iff.mp hrun
  have hr₁ := (Reachable.init blank).insert (by decide) (by decide) hinsert₁
  have hr₃ := (hr₁.insert (by decide) (by decide) hinsert₂).insert (by decide) (by decide) hinsert₃
  exact ⟨h, hr₃.delete (by decide) hdelete⟩

theorem reachable_redBlack_sample : ∃ h nodes, nodes.Perm [2, 6] ∧
    Holds 0 1 numberCompare h nodes ∧
      (∀ x, x ≠ 0 → x ∉ [2, 6] →
        ∃ h' l r, nodes = l ++ r ∧ Holds 0 1 numberCompare h' (l ++ x :: r) ∧
          ∀ fuel, 2 < fuel → insert 0 numberCompare fuel x h = some h') ∧
      (∀ x ∈ [2, 6],
        ∃ h' l r, nodes = l ++ x :: r ∧ Holds 0 1 numberCompare h' (l ++ r) ∧
          ∀ fuel, 2 + 1 < fuel → delete 0 fuel x h = some h') := by
  obtain ⟨h, hr⟩ := reachable_sample
  exact ⟨h, reachable_redBlack numberCompare_preorder hr⟩

end Njs.Rbtree
