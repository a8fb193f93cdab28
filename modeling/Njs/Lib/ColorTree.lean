import Mathlib.Algebra.Group.Nat.Defs
import Mathlib.Tactic.Common
import Mathlib.Data.List.Nodup
import Mathlib.Data.List.Perm.Basic

/-!
# Colored binary trees and paths into them

A place in a tree is a path of crumbs to it: on each level the side on which the path goes down,
the node, and the sibling subtree. All that is mirrored is stated once for a side `s`: `join s`
makes a tree from its subtree on the side `s` and the other one.

A red-black tree has a black height, and a red node has black children. A path has the same
properties for the trees that fit at its end.
-/

namespace Njs.Lib

inductive Color where
  | red
  | black
  deriving DecidableEq, Repr

inductive Side where
  | left
  | right
  deriving DecidableEq, Repr

namespace Side

def flip : Side → Side
  | .left => .right
  | .right => .left

@[simp] theorem flip_flip (s : Side) : s.flip.flip = s := by cases s <;> rfl

@[simp] theorem flip_ne (s : Side) : s.flip ≠ s := by cases s <;> simp [flip]

@[simp] theorem ne_flip (s : Side) : s ≠ s.flip := by cases s <;> simp [flip]

theorem eq_or_eq_flip (s t : Side) : t = s ∨ t = s.flip := by cases s <;> cases t <;> simp [flip]

end Side

inductive ColorTree (α : Type*) where
  | nil
  | node (color : Color) (left : ColorTree α) (x : α) (right : ColorTree α)
  deriving Repr

namespace ColorTree

variable {α : Type*}

def inorder : ColorTree α → List α
  | nil => []
  | node _ l x r => l.inorder ++ x :: r.inorder

def color : ColorTree α → Color
  | nil => .black
  | node c _ _ _ => c

/-- The tree with another color of its root. -/
def paint (c : Color) : ColorTree α → ColorTree α
  | nil => nil
  | node _ l x r => node c l x r

@[simp] theorem inorder_paint (c : Color) (t : ColorTree α) : (t.paint c).inorder = t.inorder := by
  cases t <;> rfl

/-- The tree with the subtree `t` on the side `s`, and `u` on the other side. -/
def join (s : Side) (c : Color) (t : ColorTree α) (x : α) (u : ColorTree α) : ColorTree α :=
  match s with
  | .left => node c t x u
  | .right => node c u x t

@[simp] theorem color_join (s : Side) (c : Color) (t : ColorTree α) (x : α) (u : ColorTree α) :
    (join s c t x u).color = c := by
  cases s <;> rfl

@[simp] theorem paint_join (s : Side) (c c' : Color) (t : ColorTree α) (x : α) (u : ColorTree α) :
    (join s c t x u).paint c' = join s c' t x u := by
  cases s <;> rfl

@[simp] theorem join_ne_nil (s : Side) (c : Color) (t : ColorTree α) (x : α) (u : ColorTree α) :
    join s c t x u ≠ nil := by
  cases s <;> simp [join]

theorem join_flip (s : Side) (c : Color) (t : ColorTree α) (x : α) (u : ColorTree α) :
    join s.flip c t x u = join s c u x t := by
  cases s <;> rfl

/-- Every tree that is not empty is made from each of its sides. -/
theorem exists_join (s : Side) {t : ColorTree α} (h : t ≠ nil) :
    ∃ c u x v, t = join s c u x v := by
  cases t with
  | nil => exact absurd rfl h
  | node c l x r =>
    cases s with
    | left => exact ⟨c, l, x, r, rfl⟩
    | right => exact ⟨c, r, x, l, rfl⟩

theorem ne_nil_of_red {t : ColorTree α} (h : t.color = .red) : t ≠ nil := by
  rintro rfl
  cases h

theorem inorder_join_congr {s : Side} {c c' : Color} {t t' u u' : ColorTree α} {x : α}
    (ht : t.inorder = t'.inorder) (hu : u.inorder = u'.inorder) :
    (join s c t x u).inorder = (join s c' t' x u').inorder := by
  cases s <;> simp [join, inorder, ht, hu]

/-- A rotation changes which of the two nodes is the upper one. -/
theorem inorder_rotate (s : Side) (c c' d d' : Color) (a b e : ColorTree α) (x y : α) :
    (join s c a x (join s c' b y e)).inorder = (join s d (join s d' a x b) y e).inorder := by
  cases s <;> simp [join, inorder]

theorem inorder_join_perm (s : Side) (c : Color) (t : ColorTree α) (x : α) (u : ColorTree α) :
    (join s c t x u).inorder.Perm (x :: (t.inorder ++ u.inorder)) := by
  cases s with
  | left => exact List.perm_middle
  | right =>
    refine List.perm_middle.trans (List.Perm.cons x ?_)
    exact List.perm_append_comm

theorem inorder_join_append_perm (s : Side) (c : Color) (t : ColorTree α) (x : α)
    (u : ColorTree α) (rest : List α) : ((join s c t x u).inorder ++ rest).Perm
      (x :: (t.inorder ++ (u.inorder ++ rest))) := by
  simpa using (inorder_join_perm s c t x u).append_right rest

end ColorTree

open ColorTree

/-- One level of a path: the node, and the subtree on the other side. -/
structure Crumb (α : Type*) where
  side : Side
  color : Color
  x : α
  sibling : ColorTree α

section Paths

variable {α : Type*}

/-- The tree with a subtree at the end of a path, whose first crumb is the deepest. -/
def plug : List (Crumb α) → ColorTree α → ColorTree α
  | [], t => t
  | ⟨s, c, x, u⟩ :: up, t => plug up (join s c t x u)

@[simp] theorem plug_nil (t : ColorTree α) : plug [] t = t := rfl

@[simp] theorem plug_cons (s : Side) (c : Color) (x : α) (u : ColorTree α) (up : List (Crumb α))
    (t : ColorTree α) : plug (⟨s, c, x, u⟩ :: up) t = plug up (join s c t x u) := rfl

/-- The place of the other child of a node. -/
theorem plug_far (s : Side) (c : Color) (x : α) (t u : ColorTree α) (path : List (Crumb α)) :
    plug (⟨s.flip, c, x, t⟩ :: path) u = plug path (join s c t x u) := by
  rw [plug_cons, join_flip]

theorem plug_append (path path' : List (Crumb α)) (t : ColorTree α) :
    plug (path ++ path') t = plug path' (plug path t) := by
  induction path generalizing t with
  | nil => rfl
  | cons crumb path ih => exact ih _

/-- The nodes before the place at the end of a path. -/
def before : List (Crumb α) → List α
  | [] => []
  | ⟨.left, _, _, _⟩ :: up => before up
  | ⟨.right, _, x, u⟩ :: up => before up ++ (u.inorder ++ [x])

/-- The nodes after the place at the end of a path. -/
def after : List (Crumb α) → List α
  | [] => []
  | ⟨.left, _, x, u⟩ :: up => x :: u.inorder ++ after up
  | ⟨.right, _, _, _⟩ :: up => after up

theorem before_append (path path' : List (Crumb α)) :
    before (path ++ path') = before path' ++ before path := by
  induction path with
  | nil => simp [before]
  | cons crumb path ih =>
    obtain ⟨s, c, x, u⟩ := crumb
    cases s <;> simp [before, ih]

theorem after_append (path path' : List (Crumb α)) :
    after (path ++ path') = after path ++ after path' := by
  induction path with
  | nil => simp [after]
  | cons crumb path ih =>
    obtain ⟨s, c, x, u⟩ := crumb
    cases s <;> simp [after, ih]

theorem inorder_plug (path : List (Crumb α)) (t : ColorTree α) :
    (plug path t).inorder = before path ++ (t.inorder ++ after path) := by
  induction path generalizing t with
  | nil => simp [before, after]
  | cons crumb up ih =>
    obtain ⟨s, c, x, u⟩ := crumb
    cases s <;> simp [ih, before, after, ColorTree.join, inorder]

theorem inorder_plug_congr {path : List (Crumb α)} {t t' : ColorTree α}
    (h : t.inorder = t'.inorder) : (plug path t).inorder = (plug path t').inorder := by
  rw [inorder_plug, inorder_plug, h]

/-- A node of a tree is the root of a subtree at the end of a path. -/
theorem exists_plug {t : ColorTree α} {x : α} (h : x ∈ t.inorder) :
    ∃ path c l r, t = plug path (.node c l x r) := by
  induction t with
  | nil => simp [inorder] at h
  | node c l y r ihl ihr =>
    rw [inorder, List.mem_append, List.mem_cons] at h
    rcases h with h | rfl | h
    · obtain ⟨path, c', l', r', rfl⟩ := ihl h
      refine ⟨path ++ [⟨.left, c, y, r⟩], c', l', r', ?_⟩
      rw [plug_append]
      rfl
    · exact ⟨[], c, l, r, rfl⟩
    · obtain ⟨path, c', l', r', rfl⟩ := ihr h
      refine ⟨path ++ [⟨.right, c, y, l⟩], c', l', r', ?_⟩
      rw [plug_append]
      rfl

end Paths

/-! ## Red-black trees -/

section RedBlack

variable {α : Type*}

/-- The nodes of a tree are red or black so that a red node has black children, and all paths
to its leaves have `n` black nodes. -/
inductive RB : ColorTree α → Color → ℕ → Prop
  | nil : RB .nil .black 0
  | red {l r : ColorTree α} {x : α} {n : ℕ} (hl : RB l .black n) (hr : RB r .black n) :
    RB (.node .red l x r) .red n
  | black {l r : ColorTree α} {x : α} {c c' : Color} {n : ℕ} (hl : RB l c n) (hr : RB r c' n) :
    RB (.node .black l x r) .black (n + 1)

/-- The trees that fit at the end of a path have the black height `n`, and they may have a red
root only if `c` is red. -/
inductive RBPath : List (Crumb α) → Color → ℕ → Prop
  | root {n : ℕ} : RBPath [] .black n
  | red {s : Side} {x : α} {u : ColorTree α} {up : List (Crumb α)} {n : ℕ}
    (hu : RB u .black n) (hup : RBPath up .red n) : RBPath (⟨s, .red, x, u⟩ :: up) .black n
  | black {s : Side} {x : α} {u : ColorTree α} {up : List (Crumb α)} {c c' : Color} {n : ℕ}
    (hu : RB u c' n) (hup : RBPath up .black (n + 1)) : RBPath (⟨s, .black, x, u⟩ :: up) c n

theorem RB.color_eq {t : ColorTree α} {c : Color} {n : ℕ} (h : RB t c n) : t.color = c := by
  cases h <;> rfl

theorem RB.eq_red {t : ColorTree α} {c : Color} {n : ℕ} (h : RB t c n) (ht : t.color ≠ .black) :
    c = .red := by
  have hc := h.color_eq
  cases c with
  | red => rfl
  | black => exact absurd hc ht

theorem RB.pow_le_length {t : ColorTree α} {c : Color} {n : ℕ} (h : RB t c n) :
    2 ^ n ≤ t.inorder.length + 1 := by
  induction h with
  | nil => exact Nat.le_refl 1
  | red _ _ ihl ihr | black _ _ ihl ihr =>
    rw [inorder, List.length_append, List.length_cons]
    omega

theorem RB.join_red {t u : ColorTree α} {n : ℕ} (s : Side) (x : α) (ht : RB t .black n)
    (hu : RB u .black n) : RB (join s .red t x u) .red n := by
  cases s
  · exact .red ht hu
  · exact .red hu ht

theorem RB.join_black {t u : ColorTree α} {c c' : Color} {n : ℕ} (s : Side) (x : α) (ht : RB t c n)
    (hu : RB u c' n) : RB (join s .black t x u) .black (n + 1) := by
  cases s
  · exact .black ht hu
  · exact .black hu ht

/-- The subtrees of a red root. -/
theorem RB.of_join_red {s : Side} {t u : ColorTree α} {x : α} {c : Color} {n : ℕ}
    (h : RB (join s .red t x u) c n) : c = .red ∧ RB t .black n ∧ RB u .black n := by
  cases s <;> cases h with
  | red hl hr => exact ⟨rfl, by assumption, by assumption⟩

/-- The subtrees of a black root. -/
theorem RB.of_join_black {s : Side} {t u : ColorTree α} {x : α} {c : Color} {n : ℕ}
    (h : RB (join s .black t x u) c n) :
    c = .black ∧ ∃ m ct cu, n = m + 1 ∧ RB t ct m ∧ RB u cu m := by
  cases s <;> cases h with
  | black hl hr => exact ⟨rfl, _, _, _, rfl, by assumption, by assumption⟩

theorem RB.paint_black {t : ColorTree α} {n : ℕ} (h : RB t .red n) :
    RB (t.paint .black) .black (n + 1) := by
  cases h with
  | red hl hr => exact .black hl hr

/-- A tree may be given a black root, except that the height changes. -/
theorem RB.exists_paint_black {t : ColorTree α} {c : Color} {n : ℕ} (h : RB t c n) :
    ∃ m, RB (t.paint .black) .black m := by
  cases h with
  | nil => exact ⟨0, .nil⟩
  | red hl hr => exact ⟨_, .black hl hr⟩
  | black hl hr => exact ⟨_, .black hl hr⟩

theorem RBPath.to_black {path : List (Crumb α)} {c : Color} {n : ℕ} (h : RBPath path c n) :
    RBPath path .black n := by
  cases h with
  | root => exact .root
  | red hu hup => exact .red hu hup
  | black hu hup => exact .black hu hup

/-- A tree that fits at the end of a path completes it to a red-black tree. -/
theorem RBPath.plug {path : List (Crumb α)} {t : ColorTree α} {c : Color} {n : ℕ}
    (h : RBPath path c n) (ht : RB t c n) : ∃ m, RB (Lib.plug path t) .black m := by
  induction h generalizing t with
  | root => exact ⟨_, ht⟩
  | red hu _ ih => exact ih (.join_red _ _ ht hu)
  | black hu _ ih => exact ih (.join_black _ _ ht hu)

theorem RBPath.sibling {s : Side} {c c' : Color} {x : α} {v : ColorTree α}
    {up : List (Crumb α)} {n : ℕ} (h : RBPath (⟨s, c, x, v⟩ :: up) c' n) : ∃ d, RB v d n := by
  cases h with
  | red hu _ => exact ⟨_, hu⟩
  | black hu _ => exact ⟨_, hu⟩

/-- New children of the last node of a path, which are both black. -/
theorem RBPath.plug_join {s : Side} {c : Color} {x y : α} {t u v : ColorTree α}
    {up : List (Crumb α)} {n : ℕ} (h : RBPath (⟨s, c, x, v⟩ :: up) .black n)
    (ht : RB t .black n) (hu : RB u .black n) :
    ∃ m, RB (Lib.plug up (join s c t y u)) .black m := by
  cases h with
  | red _ hup => exact hup.plug (.join_red _ _ ht hu)
  | black _ hup => exact hup.plug (.join_black _ _ ht hu)

/-- What a red-black tree gives for a path in it. -/
theorem RB.of_plug {path : List (Crumb α)} {t : ColorTree α} {m : ℕ}
    (h : RB (Lib.plug path t) .black m) : ∃ c n, RB t c n ∧ RBPath path c n := by
  induction path generalizing t with
  | nil => exact ⟨_, _, h, .root⟩
  | cons crumb up ih =>
    obtain ⟨s, c, x, u⟩ := crumb
    obtain ⟨c', n, hjoin, hup⟩ := ih h
    cases c with
    | red =>
      obtain ⟨rfl, ht, hu⟩ := hjoin.of_join_red
      exact ⟨_, _, ht, .red hu hup⟩
    | black =>
      obtain ⟨rfl, k, ct, cu, rfl, ht, hu⟩ := hjoin.of_join_black
      exact ⟨_, _, ht, .black hu hup⟩

/-- The colors are all that counts. -/
theorem RB.relabel {path : List (Crumb α)} {c : Color} {l r : ColorTree α} {x : α} {m : ℕ}
    (h : RB (Lib.plug path (.node c l x r)) .black m) (y : α) :
    ∃ m', RB (Lib.plug path (.node c l y r)) .black m' := by
  obtain ⟨d, n, ht, hpath⟩ := h.of_plug
  cases ht with
  | red hl hr => exact hpath.plug (.red hl hr)
  | black hl hr => exact hpath.plug (.black hl hr)

end RedBlack

end Njs.Lib
