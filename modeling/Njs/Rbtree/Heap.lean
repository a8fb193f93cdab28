import Njs.Lib.ColorTree
import Mathlib.Data.Int.Notation

/-!
# Red-black trees in memory

`njs_rbtree.c` on a memory that holds the fields of nodes. The sentinel is the leaf of all
branches and the parent of the root, which is its left child. Its right field holds the
comparison callback, which is a parameter here.

The links `left` and `right` are one field with a side. Where the code has a branch and its
mirror image, which is chosen by the side of a node, there is one definition for both. A loop
gets fuel; it gives no result if the fuel runs out.
-/

namespace Njs.Rbtree

open Njs.Lib

/-- The fields of `njs_rbtree_node_t` at every address. -/
structure Heap (P : Type) where
  child : Side → P → P
  parent : P → P
  color : P → Color

namespace Heap

variable {P : Type} [DecidableEq P]

def setChild (s : Side) (p v : P) (h : Heap P) : Heap P :=
  { h with child := fun s' => if s' = s then Function.update (h.child s) p v else h.child s' }

def setParent (p v : P) (h : Heap P) : Heap P := { h with parent := Function.update h.parent p v }

def setColor (p : P) (c : Color) (h : Heap P) : Heap P :=
  { h with color := Function.update h.color p c }

variable {s t : Side} {p v z : P} {c : Color} {h : Heap P}

theorem setChild_child :
    (h.setChild s p v).child t z = if t = s ∧ z = p then v else h.child t z := by
  simp only [setChild]
  by_cases hs : t = s
  · subst hs
    simp [Function.update_apply]
  · simp [hs]

@[simp] theorem setChild_parent : (h.setChild s p v).parent = h.parent := rfl

@[simp] theorem setChild_color : (h.setChild s p v).color = h.color := rfl

@[simp] theorem setParent_child : (h.setParent p v).child = h.child := rfl

theorem setParent_parent : (h.setParent p v).parent z = if z = p then v else h.parent z :=
  Function.update_apply ..

@[simp] theorem setParent_color : (h.setParent p v).color = h.color := rfl

@[simp] theorem setColor_child : (h.setColor p c).child = h.child := rfl

@[simp] theorem setColor_parent : (h.setColor p c).parent = h.parent := rfl

theorem setColor_color : (h.setColor p c).color z = if z = p then c else h.color z :=
  Function.update_apply ..

end Heap

section Code

variable {P : Type} [DecidableEq P] (sentinel : P) (compare : P → P → ℤ)

/-- `njs_rbtree_root`. -/
def root (h : Heap P) : P := h.child .left sentinel

/-- `njs_rbtree_init`, with the callback in the right field of the sentinel. -/
def init (callback : P) (h : Heap P) : Heap P :=
  h.setChild .left sentinel sentinel |>.setChild .right sentinel callback
    |>.setColor sentinel .black

/-- `njs_rbtree_parent_relink`. -/
def parentRelink (subst node : P) (h : Heap P) : Heap P :=
  let parent := h.parent node
  let h := h.setParent subst parent
  let side : Side := if node = h.child .left parent then .left else .right
  h.setChild side parent subst

/-- A rotation that moves a node down on the side `s`. -/
def rotate (s : Side) (node : P) (h : Heap P) : Heap P :=
  let child := h.child s.flip node
  let h := h.setChild s.flip node (h.child s child)
  let h := h.setParent (h.child s child) node
  let h := h.setChild s child node
  let h := parentRelink child node h
  h.setParent node child

/-- `njs_rbtree_left_rotate`. -/
def leftRotate (node : P) (h : Heap P) : Heap P := rotate .left node h

/-- `njs_rbtree_right_rotate`. -/
def rightRotate (node : P) (h : Heap P) : Heap P := rotate .right node h

/-- The side on which a node is below its parent. -/
def sideOf (node parent : P) (h : Heap P) : Side :=
  if node = h.child .left parent then .left else .right

/-- The end of `njs_rbtree_insert_fixup`, when the uncle is black: one rotation or two. -/
def insertRotate (s : Side) (node parent grandparent : P) (h : Heap P) : Heap P :=
  let (node, h) := if node = h.child s.flip parent then (parent, rotate s parent h) else (node, h)
  let parent := h.parent node
  let h := h.setColor parent .black
  let h := h.setColor grandparent .red
  rotate s.flip grandparent h

/-- `njs_rbtree_insert_fixup`. -/
def insertFixup : ℕ → P → Heap P → Option (Heap P)
  | 0, _, _ => none
  | fuel + 1, node, h =>
    let parent := h.parent node
    if h.color parent = .black then some h
    else
      let grandparent := h.parent parent
      let s := sideOf parent grandparent h
      let uncle := h.child s.flip grandparent
      if h.color uncle = .black then some (insertRotate s node parent grandparent h)
      else
        insertFixup fuel grandparent
          (h.setColor uncle .black |>.setColor parent .black |>.setColor grandparent .red)

/-- The descent of `njs_rbtree_insert`: the last node, and the link where the new one goes. -/
def insertDescend (newNode : P) (h : Heap P) : ℕ → P → P × Side → Option (P × P × Side)
  | 0, _, _ => none
  | fuel + 1, node, child =>
    if h.child child.2 child.1 = sentinel then some (node, child)
    else
      let node := h.child child.2 child.1
      insertDescend newNode h fuel node
        (node, if compare newNode node < 0 then .left else .right)

/-- `njs_rbtree_insert`. -/
def insert (fuel : ℕ) (newNode : P) (h : Heap P) : Option (Heap P) := do
  let h := h.setChild .left newNode sentinel |>.setChild .right newNode sentinel
    |>.setColor newNode .red
  let (node, child) ← insertDescend sentinel compare newNode h fuel (root sentinel h)
    (sentinel, .left)
  let h := h.setChild child.2 child.1 newNode |>.setParent newNode node
  let h ← insertFixup fuel newNode h
  some (h.setColor (root sentinel h) .black)

/-- The loop of `njs_rbtree_find`, which gives a node or `NULL`. -/
def findLoop (probe : P) (h : Heap P) : ℕ → P → Option (Option P)
  | 0, _ => none
  | fuel + 1, next =>
    if next = sentinel then some none
    else
      let n := compare probe next
      if n < 0 then findLoop probe h fuel (h.child .left next)
      else if n > 0 then findLoop probe h fuel (h.child .right next)
      else some (some next)

/-- `njs_rbtree_find`. -/
def find (fuel : ℕ) (probe : P) (h : Heap P) : Option (Option P) :=
  findLoop sentinel compare probe h fuel (root sentinel h)

/-- The loop of the bounded searches: `retval` is the best node so far, which is replaced where
the search goes to the side `s`. -/
def findBoundLoop (s : Side) (probe : P) (h : Heap P) : ℕ → P → Option P → Option (Option P)
  | 0, _, _ => none
  | fuel + 1, next, retval =>
    if next = sentinel then some retval
    else
      let n := compare probe next
      if n < 0 then
        findBoundLoop s probe h fuel (h.child .left next)
          (if s = .left then some next else retval)
      else if n > 0 then
        findBoundLoop s probe h fuel (h.child .right next)
          (if s = .right then some next else retval)
      else some (some next)

/-- `njs_rbtree_find_less_or_equal`. -/
def findLessOrEqual (fuel : ℕ) (probe : P) (h : Heap P) : Option (Option P) :=
  findBoundLoop sentinel compare .right probe h fuel (root sentinel h) none

/-- `njs_rbtree_find_greater_or_equal`. -/
def findGreaterOrEqual (fuel : ℕ) (probe : P) (h : Heap P) : Option (Option P) :=
  findBoundLoop sentinel compare .left probe h fuel (root sentinel h) none

/-- `njs_rbtree_branch_min`. -/
def branchMin (h : Heap P) : ℕ → P → Option P
  | 0, _ => none
  | fuel + 1, node =>
    if h.child .left node = sentinel then some node else branchMin h fuel (h.child .left node)

/-- `njs_rbtree_min`. -/
def min (fuel : ℕ) (h : Heap P) : Option P := branchMin sentinel h fuel sentinel

/-- The climb of `njs_rbtree_node_successor`. -/
def successorClimb (h : Heap P) : ℕ → P → Option P
  | 0, _ => none
  | fuel + 1, node =>
    let parent := h.parent node
    if node = h.child .left parent then some parent else successorClimb h fuel parent

/-- `njs_rbtree_node_successor`. -/
def nodeSuccessor (fuel : ℕ) (node : P) (h : Heap P) : Option P :=
  if h.child .right node = sentinel then successorClimb h fuel node
  else branchMin sentinel h fuel (h.child .right node)

/-- The end of `njs_rbtree_delete_fixup`, when the far child of the sibling is red. -/
def deleteRotate (s : Side) (parent sibling : P) (h : Heap P) : Heap P :=
  let h := h.setColor sibling (h.color parent)
  let h := h.setColor parent .black
  let h := h.setColor (h.child s.flip sibling) .black
  rotate s parent h

/-- What a round of `njs_rbtree_delete_fixup` does after the sibling is black: it goes on at the
parent (`true`), or returns. -/
def deleteSibling (s : Side) (parent sibling : P) (h : Heap P) : Bool × Heap P :=
  if h.color (h.child s.flip sibling) = .black then
    let h := h.setColor sibling .red
    if h.color (h.child s sibling) = .black then (true, h)
    else
      let h := h.setColor (h.child s sibling) .black
      let h := rotate s.flip sibling h
      (false, deleteRotate s parent (h.child s.flip parent) h)
  else (false, deleteRotate s parent sibling h)

/-- A round of `njs_rbtree_delete_fixup`, on the side of the node. -/
def deleteRound (s : Side) (parent : P) (h : Heap P) : Bool × Heap P :=
  let sibling := h.child s.flip parent
  if h.color sibling ≠ .black then
    let h := h.setColor sibling .black
    let h := h.setColor parent .red
    let h := rotate s parent h
    deleteSibling s parent (h.child s.flip parent) h
  else deleteSibling s parent sibling h

/-- `njs_rbtree_delete_fixup`. -/
def deleteFixup : ℕ → P → Heap P → Option (Heap P)
  | 0, _, _ => none
  | fuel + 1, node, h =>
    if node ≠ root sentinel h ∧ h.color node = .black then
      let parent := h.parent node
      match deleteRound (sideOf node parent h) parent h with
      | (true, h) => deleteFixup fuel parent h
      | (false, h) => some h
    else some (h.setColor node .black)

/-- The move of `njs_rbtree_delete` of the node `subst` to the place of the deleted node. -/
def moveTo (subst node : P) (h : Heap P) : Heap P :=
  let h := h.setColor subst (h.color node)
  let h := h.setChild .left subst (h.child .left node)
  let h := h.setParent (h.child .left subst) subst
  let h := h.setChild .right subst (h.child .right node)
  let h := h.setParent (h.child .right subst) subst
  parentRelink subst node h

/-- The nodes `subst` and `child` of `njs_rbtree_delete`. -/
def deleteNodes (fuel : ℕ) (node : P) (h : Heap P) : Option (P × P) :=
  if h.child .left node = sentinel then some (node, h.child .right node)
  else if h.child .right node = sentinel then some (node, h.child .left node)
  else do
    let subst ← branchMin sentinel h fuel (h.child .right node)
    some (subst, h.child .right subst)

/-- `njs_rbtree_delete`. -/
def delete (fuel : ℕ) (node : P) (h : Heap P) : Option (Heap P) := do
  let (subst, child) ← deleteNodes sentinel fuel node h
  let h := parentRelink child subst h
  let color := h.color subst
  let h := if subst ≠ node then moveTo subst node h else h
  if color = .black then deleteFixup sentinel fuel child h else some h

end Code

end Njs.Rbtree
