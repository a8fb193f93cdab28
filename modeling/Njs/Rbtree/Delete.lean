import Njs.Rbtree.DeleteFixup

/-!
# Deletion

A node with at most one child is replaced by this child. Otherwise the next node, which has no
left child, is replaced by its child and moved to the place of the deleted node.
-/

namespace Njs.Rbtree

open Njs.Lib Njs.Lib.ColorTree

variable {P : Type} [DecidableEq P] {sentinel callback : P} {h : Heap P} {path : List (Crumb P)}
  {s : Side} {c : Color} {l r t u : ColorTree P} {x y : P} {n : ℕ}

/-! ## The replacement of a node by its child -/

/-- The only child of a node takes its place. -/
theorem Realizes.replaced
    (hr : Realizes sentinel callback h (plug path (join s c .nil x u))) :
    Realizes sentinel callback (parentRelink (ptr sentinel u) x h) (plug path u) ∧
      (parentRelink (ptr sentinel u) x h).parent (ptr sentinel u) = owner sentinel path := by
  have hat := hr.at
  obtain ⟨hx, -, hq, -, -, -, hru⟩ := rep_join.mp hat.here
  have habove := hat.above
  rw [ptr_join] at habove
  have hperm : ((join s c .nil x u).inorder ++ pathNodes path).Perm
      (x :: (u.inorder ++ pathNodes path)) :=
    (inorder_join_perm s c .nil x u).append_right _
  have hnd := hperm.nodup_iff.mp hat.nodup
  rw [List.nodup_cons, List.mem_append, not_or] at hnd
  obtain ⟨⟨hxu, hxw⟩, hnd⟩ := hnd
  have hside := sideOf_eq habove hx hxw
  have heq : parentRelink (ptr sentinel u) x h = (h.setParent (ptr sentinel u)
      (owner sentinel path)).setChild (endSide path) (owner sentinel path) (ptr sentinel u) := by
    unfold parentRelink
    unfold sideOf at hside
    simp only [hq, Heap.setParent_child, hside]
  rw [heq]
  have hchild : ∀ s z, (z ≠ owner sentinel path ∨ s ≠ endSide path) →
      ((h.setParent (ptr sentinel u) (owner sentinel path)).setChild (endSide path)
        (owner sentinel path) (ptr sentinel u)).child s z = h.child s z := by
    intro s z hend
    rw [Heap.setChild_child, if_neg (by tauto)]
    rfl
  have hparent : ((h.setParent (ptr sentinel u) (owner sentinel path)).setChild (endSide path)
      (owner sentinel path) (ptr sentinel u)).parent (ptr sentinel u) = owner sentinel path := by
    rw [Heap.setChild_parent, Heap.setParent_parent, if_pos rfl]
  have hnot : path ≠ [] → sentinel ≠ owner sentinel path := fun hne heq => by
    rcases owner_eq_or_mem path with ⟨hnil, -⟩ | hown
    · exact hne hnil
    · exact habove.ne_sentinel _ hown heq.symm
  refine ⟨At.realizes ⟨?_, ?_, hnd⟩ hr.black ?_, hparent⟩
  · refine habove.relink hnd.of_append_right (fun z _ s hend => hchild s z hend) (fun z hz => ?_)
      (fun _ _ => rfl) (fun hne => hchild _ _ (Or.inl (hnot hne))) ?_
    · rw [Heap.setChild_parent, Heap.setParent_parent, if_neg]
      exact Ne.symm (ptr_ne (habove.ne_sentinel z hz) fun hzu =>
        (List.nodup_append.mp hnd).2.2 z hzu z hz rfl)
    · rw [Heap.setChild_child, if_pos ⟨rfl, rfl⟩]
  · refine hru.reparent hnd.of_append_left (fun z hz s => hchild s z (Or.inl ?_))
      (fun _ _ => rfl) (fun z _ hne => ?_) hparent
    · exact Ne.symm (owner_ne (hru.ne_sentinel z hz) fun hzw =>
        (List.nodup_append.mp hnd).2.2 z hz z hzw rfl)
    · rw [Heap.setChild_parent, Heap.setParent_parent, if_neg hne]
  · rw [hchild]
    · exact hr.callback
    · by_cases hnil : path = []
      · exact Or.inr (by simp [hnil, endSide])
      · exact Or.inl (hnot hnil)

/-! ## The next node -/

/-- The search for the leftmost node of a subtree. -/
theorem branchMin_spec {fuel : ℕ} {q : P} (ht : Rep sentinel h q t) (hne : t ≠ .nil)
    (hfuel : t.inorder.length ≤ fuel) :
    ∃ lp d y v, t = plug lp (.node d .nil y v) ∧ before lp = [] ∧
      branchMin sentinel h fuel (ptr sentinel t) = some y := by
  induction fuel generalizing t q with
  | zero =>
    cases t with
    | nil => exact absurd rfl hne
    | node d l y v => simp [inorder] at hfuel
  | succ fuel ih =>
    obtain ⟨d, l, y, v, rfl⟩ := exists_join .left hne
    obtain ⟨hy, -, -, hl, -, hrl, -⟩ := ht
    rw [ptr_join, branchMin, hl]
    by_cases hnil : l = .nil
    · subst hnil
      exact ⟨[], d, y, v, rfl, rfl, if_pos rfl⟩
    · rw [if_neg (by rwa [hrl.ptr_eq_sentinel])]
      have hlen : l.inorder.length ≤ fuel := by
        have : l.inorder.length + (v.inorder.length + 1) ≤ fuel + 1 := by
          simpa [join, inorder] using hfuel
        omega
      obtain ⟨lp, d', y', v', hl', hbefore, hrun⟩ := ih hrl hnil hlen
      refine ⟨lp ++ [⟨.left, d, y, v⟩], d', y', v', ?_, ?_, hrun⟩
      · rw [plug_append, ← hl']
        rfl
      · rw [before_append, hbefore]
        rfl

/-- The memory after a node was moved to the place of another one. -/
theorem moveTo_eq {pl pr q : P} {side : Side} (hc : h.color x = c)
    (hl : h.child .left x = pl) (hr : h.child .right x = pr) (hq : h.parent x = q)
    (hxl : x ≠ pl) (hxr : x ≠ pr) (hqy : q ≠ y) (hside : sideOf x q h = side) :
    moveTo y x h = ((((((h.setColor y c).setChild .left y pl).setParent pl y).setChild .right y
      pr).setParent pr y).setParent y q).setChild side q y := by
  have hpl : ((h.setColor y c).setChild .left y pl).child .left y = pl := by
    rw [Heap.setChild_child, if_pos ⟨rfl, rfl⟩]
  have hright : (((h.setColor y c).setChild .left y pl).setParent pl y).child .right x = pr := by
    rw [Heap.setParent_child, Heap.setChild_child, if_neg (by simp), Heap.setColor_child, hr]
  have hpr : ((((h.setColor y c).setChild .left y pl).setParent pl y).setChild .right y pr).child
      .right y = pr := by
    rw [Heap.setChild_child, if_pos ⟨rfl, rfl⟩]
  have hparent : (((((h.setColor y c).setChild .left y pl).setParent pl y).setChild .right y
      pr).setParent pr y).parent x = q := by
    rw [Heap.setParent_parent, if_neg hxr, Heap.setChild_parent, Heap.setParent_parent, if_neg hxl]
    exact hq
  have hlink : (((((h.setColor y c).setChild .left y pl).setParent pl y).setChild .right y
      pr).setParent pr y).child .left q = h.child .left q := by
    rw [Heap.setParent_child, Heap.setChild_child, if_neg (by simp), Heap.setParent_child,
      Heap.setChild_child, if_neg fun hand => hqy hand.2]
    rfl
  unfold moveTo parentRelink
  unfold sideOf at hside
  simp only [hc, Heap.setColor_child, hl, hpl, hright, hpr, hparent]
  simp only [Heap.setParent_child, hlink, hside]

/-- A node outside the tree takes the place, the color and the children of a node. -/
theorem Realizes.moved (hr : Realizes sentinel callback h (plug path (.node c l x r)))
    (hy : y ≠ sentinel) (hmem : y ∉ (plug path (.node c l x r)).inorder) :
    Realizes sentinel callback (moveTo y x h) (plug path (.node c l y r)) ∧
      (moveTo y x h).parent (ptr sentinel r) = y ∧
      ∀ z, z ≠ y → z ≠ ptr sentinel l → z ≠ ptr sentinel r →
        (moveTo y x h).parent z = h.parent z := by
  obtain ⟨habove, hhere, hnd⟩ := hr.at
  obtain ⟨hx, hc, hq, hl, hrx, hrl, hrr⟩ := hhere
  have hperm : ((ColorTree.node c l x r).inorder ++ pathNodes path).Perm
      (x :: (l.inorder ++ (r.inorder ++ pathNodes path))) :=
    inorder_join_append_perm .left c l x r _
  have hmem' : y ∉ x :: (l.inorder ++ (r.inorder ++ pathNodes path)) := fun hin =>
    hmem ((inorder_plug_perm path _).mem_iff.mpr (hperm.mem_iff.mpr hin))
  have hnotmem := fun hin => hmem' (List.mem_cons_of_mem x hin)
  have hnd' := hperm.nodup_iff.mp hnd
  simp only [List.nodup_cons, List.nodup_append, List.mem_cons, List.mem_append, not_or]
    at hnd' hmem'
  obtain ⟨⟨hxl, hxr, hxw⟩, hndl, ⟨hndr, -, hrw⟩, hlrw⟩ := hnd'
  obtain ⟨hyx, hyl, hyr, hyw⟩ := hmem'
  have hqy := owner_ne hy hyw
  have hply := ptr_ne hy hyl
  have hpry := ptr_ne hy hyr
  have hside : sideOf x (owner sentinel path) h = endSide path := sideOf_eq habove hx hxw
  rw [moveTo_eq hc hl hrx hq (Ne.symm (ptr_ne hx hxl)) (Ne.symm (ptr_ne hx hxr)) hqy hside]
  generalize hh : ((((((h.setColor y c).setChild .left y (ptr sentinel l)).setParent
    (ptr sentinel l) y).setChild .right y (ptr sentinel r)).setParent (ptr sentinel r) y).setParent
    y (owner sentinel path)).setChild (endSide path) (owner sentinel path) y = h'
  have hchild : ∀ s' z, z ≠ y → (z ≠ owner sentinel path ∨ s' ≠ endSide path) →
      h'.child s' z = h.child s' z := by
    intro s' z hzy hend
    rw [← hh, Heap.setChild_child, if_neg (by tauto), Heap.setParent_child, Heap.setParent_child,
      Heap.setChild_child, if_neg (by tauto), Heap.setParent_child, Heap.setChild_child,
      if_neg (by tauto)]
    rfl
  have hparent : ∀ z, z ≠ y → z ≠ ptr sentinel l → z ≠ ptr sentinel r →
      h'.parent z = h.parent z := by
    intro z hzy hzl hzr
    rw [← hh, Heap.setChild_parent, Heap.setParent_parent, if_neg hzy, Heap.setParent_parent,
      if_neg hzr, Heap.setChild_parent, Heap.setParent_parent, if_neg hzl]
    rfl
  have hcolor : ∀ z, z ≠ y → h'.color z = h.color z := by
    intro z hzy
    rw [← hh]
    exact (Heap.setColor_color).trans (if_neg hzy)
  have hycolor : h'.color y = c := by
    rw [← hh]
    exact (Heap.setColor_color).trans (if_pos rfl)
  have hyp : h'.parent y = owner sentinel path := by
    rw [← hh, Heap.setChild_parent, Heap.setParent_parent, if_pos rfl]
  have hrp : h'.parent (ptr sentinel r) = y := by
    rw [← hh, Heap.setChild_parent, Heap.setParent_parent, if_neg hpry, Heap.setParent_parent,
      if_pos rfl]
  have hlp : h'.parent (ptr sentinel l) = y := by
    rw [← hh, Heap.setChild_parent, Heap.setParent_parent, if_neg hply, Heap.setParent_parent,
      Heap.setChild_parent, Heap.setParent_parent, if_pos rfl, ite_self]
  have hyl' : h'.child .left y = ptr sentinel l := by
    rw [← hh, Heap.setChild_child, if_neg fun hand => hqy hand.2.symm, Heap.setParent_child,
      Heap.setParent_child, Heap.setChild_child, if_neg (by simp), Heap.setParent_child,
      Heap.setChild_child, if_pos ⟨rfl, rfl⟩]
  have hyr' : h'.child .right y = ptr sentinel r := by
    rw [← hh, Heap.setChild_child, if_neg fun hand => hqy hand.2.symm, Heap.setParent_child,
      Heap.setParent_child, Heap.setChild_child, if_pos ⟨rfl, rfl⟩]
  have hqlink : h'.child (endSide path) (owner sentinel path) = y := by
    rw [← hh, Heap.setChild_child, if_pos ⟨rfl, rfl⟩]
  have hnot : path ≠ [] → sentinel ≠ owner sentinel path := fun hne heq => by
    rcases owner_eq_or_mem path with ⟨hnil, -⟩ | hown
    · exact hne hnil
    · exact habove.ne_sentinel _ hown heq.symm
  refine ⟨At.realizes ⟨?_, ⟨hy, hycolor, hyp, hyl', hyr', ?_, ?_⟩, ?_⟩ ?_ ?_, hrp, hparent⟩
  · refine habove.relink hnd.of_append_right
      (fun z hz s hend => hchild s z (ne_of_mem_of_not_mem hz hyw) hend) (fun z hz => ?_)
      (fun z hz => hcolor z (ne_of_mem_of_not_mem hz hyw))
      (fun hne => hchild _ _ (Ne.symm hy) (Or.inl (hnot hne))) hqlink
    have hzs := habove.ne_sentinel z hz
    exact hparent z (ne_of_mem_of_not_mem hz hyw)
      (Ne.symm (ptr_ne hzs fun hzl => hlrw z hzl z (Or.inr hz) rfl))
      (Ne.symm (ptr_ne hzs fun hzr => hrw z hzr z hz rfl))
  · refine hrl.reparent hndl (fun z hz s => hchild s z (ne_of_mem_of_not_mem hz hyl) (Or.inl ?_))
      (fun z hz => hcolor z (ne_of_mem_of_not_mem hz hyl)) (fun z hz hne => ?_) hlp
    · exact Ne.symm (owner_ne (hrl.ne_sentinel z hz) fun hzw => hlrw z hz z (Or.inr hzw) rfl)
    · exact hparent z (ne_of_mem_of_not_mem hz hyl) hne
        (Ne.symm (ptr_ne (hrl.ne_sentinel z hz) fun hzr => hlrw z hz z (Or.inl hzr) rfl))
  · refine hrr.reparent hndr (fun z hz s => hchild s z (ne_of_mem_of_not_mem hz hyr) (Or.inl ?_))
      (fun z hz => hcolor z (ne_of_mem_of_not_mem hz hyr)) (fun z hz hne => ?_) hrp
    · exact Ne.symm (owner_ne (hrr.ne_sentinel z hz) fun hzw => hrw z hz z hzw rfl)
    · exact hparent z (ne_of_mem_of_not_mem hz hyr)
        (Ne.symm (ptr_ne (hrr.ne_sentinel z hz) fun hzl => hlrw z hzl z (Or.inl hz) rfl)) hne
  · refine (inorder_join_append_perm .left c l y r (pathNodes path)).nodup_iff.mpr ?_
    exact List.nodup_cons.mpr ⟨hnotmem, (List.nodup_cons.mp (hperm.nodup_iff.mp hnd)).2⟩
  · rw [hcolor _ (Ne.symm hy)]
    exact hr.black
  · rw [hchild _ _ (Ne.symm hy)]
    · exact hr.callback
    · by_cases hnil : path = []
      · exact Or.inr (by simp [hnil, endSide])
      · exact Or.inl (hnot hnil)

/-! ## Deletion -/

omit [DecidableEq P] in
/-- What is left after a node with no left or no right child, or the next node, was taken out:
the tree is whole if the node was red, and else it is short at its place. -/
theorem short_of_replaced {m : ℕ} (ht : RB (plug path (join s c .nil x u)) .black m) :
    (c = .red → ∃ m', RB (plug path u) .black m') ∧ (c = .black → Short path u) := by
  obtain ⟨d, n, hjoin, hpath⟩ := ht.of_plug
  refine ⟨?_, ?_⟩
  · rintro rfl
    obtain ⟨rfl, -, hu⟩ := hjoin.of_join_red
    exact hpath.to_black.plug hu
  · rintro rfl
    obtain ⟨rfl, k, _, _, rfl, -, hu⟩ := hjoin.of_join_black
    exact .of_rb hu hpath

/-- The end of `njs_rbtree_delete`, after the node was taken out. -/
theorem deleteEnd_spec {fuel : ℕ} {d : Color} (hr : Realizes sentinel callback h (plug path u))
    (hparent : h.parent (ptr sentinel u) = owner sentinel path)
    (hred : d = .red → ∃ m, RB (plug path u) .black m) (hblack : d = .black → Short path u)
    (hfuel : path.length + 1 < fuel) :
    ∃ h', (if d = .black then deleteFixup sentinel fuel (ptr sentinel u) h else some h) = some h' ∧
      Mended sentinel callback h' (plug path u).inorder := by
  cases d with
  | red =>
    obtain ⟨m, hm⟩ := hred rfl
    exact ⟨h, if_neg (by simp), _, m, hr, hm, rfl⟩
  | black =>
    obtain ⟨h', hrun, hmended⟩ := deleteFixup_spec hr (hblack rfl) hparent (Or.inl hfuel)
    exact ⟨h', (if_pos rfl).trans hrun, hmended⟩

theorem delete_eq {fuel : ℕ} {subst child : P} {h₂ : Heap P}
    (hnodes : deleteNodes sentinel fuel x h = some (subst, child))
    (hmove : (if subst ≠ x then moveTo subst x (parentRelink child subst h)
      else parentRelink child subst h) = h₂) :
    delete sentinel fuel x h =
      if h.color subst = .black then deleteFixup sentinel fuel child h₂ else some h₂ := by
  subst hmove
  rw [delete, hnodes]
  rfl

/-- The deletion of a node with one child at most. -/
theorem delete_replaced {fuel m : ℕ}
    (hr : Realizes sentinel callback h (plug path (join s c .nil x u)))
    (ht : RB (plug path (join s c .nil x u)) .black m) (hfuel : path.length + 1 < fuel)
    (hnodes : deleteNodes sentinel fuel x h = some (x, ptr sentinel u)) :
    ∃ h', delete sentinel fuel x h = some h' ∧
      Mended sentinel callback h' (plug path u).inorder := by
  obtain ⟨hreal, hparent⟩ := hr.replaced
  obtain ⟨hred, hblack⟩ := short_of_replaced ht
  obtain ⟨h', hrun, hmended⟩ := deleteEnd_spec hreal hparent hred hblack hfuel
  refine ⟨h', ?_, hmended⟩
  rw [delete_eq hnodes (if_neg (by simp)), hr.node.2.1]
  exact hrun

omit [DecidableEq P] in
/-- A place in the right subtree of a node. -/
theorem plug_next (lp : List (Crumb P)) (t : ColorTree P) :
    plug path (.node c l x (plug lp t)) = plug (lp ++ ⟨.right, c, x, l⟩ :: path) t := by
  rw [plug_append]
  rfl

/-- The deletion of a node with two children. -/
theorem delete_moved {fuel m : ℕ} {lp : List (Crumb P)} {d : Color} {v : ColorTree P}
    (hr : Realizes sentinel callback h (plug path (.node c l x (plug lp (.node d .nil y v)))))
    (ht : RB (plug path (.node c l x (plug lp (.node d .nil y v)))) .black m) (hl : l ≠ .nil)
    (hfuel : (lp ++ ⟨.right, c, y, l⟩ :: path).length + 1 < fuel)
    (hnodes : deleteNodes sentinel fuel x h = some (y, ptr sentinel v)) :
    ∃ h', delete sentinel fuel x h = some h' ∧ Mended sentinel callback h'
      (plug (lp ++ ⟨.right, c, y, l⟩ :: path) v).inorder := by
  have hplug := fun z => @plug_next _ path c l z lp
  obtain ⟨m', ht'⟩ := ht.relabel y
  rw [hplug] at hr ht'
  have hy := (Realizes.node (s := .left) hr).1
  have hyd := (Realizes.node (s := .left) hr).2.1
  obtain ⟨hreal, hparent⟩ := Realizes.replaced (s := .left) hr
  obtain ⟨hred, hblack⟩ := short_of_replaced (s := .left) ht'
  have hperm := (inorder_plug_perm (lp ++ ⟨.right, c, x, l⟩ :: path) (.node d .nil y v)).trans
    (inorder_join_append_perm .left d .nil y v _)
  have hnd := List.nodup_cons.mp (hperm.nodup_iff.mp hr.nodup)
  have hmem : y ∉ (plug (lp ++ ⟨.right, c, x, l⟩ :: path) v).inorder := fun hin =>
    hnd.1 ((inorder_plug_perm _ v).mem_iff.mp hin)
  have hyx : y ≠ x := by
    rintro rfl
    refine hmem ((inorder_plug_perm _ v).mem_iff.mpr (List.mem_append_right _ ?_))
    rw [pathNodes_append]
    simp [pathNodes]
  rw [← hplug] at hreal hmem
  obtain ⟨hmoved, hend, hothers⟩ := hreal.moved hy hmem
  have hparent' : (moveTo y x (parentRelink (ptr sentinel v) y h)).parent (ptr sentinel v) =
      owner sentinel (lp ++ ⟨.right, c, y, l⟩ :: path) := by
    by_cases hlp : lp = []
    · subst hlp
      exact hend
    · obtain ⟨crumb, lp, rfl⟩ := List.exists_cons_of_ne_nil hlp
      rw [hplug] at hreal
      have hat := hreal.at
      have hapart : ∀ z ∈ pathNodes (crumb :: lp ++ ⟨.right, c, x, l⟩ :: path),
          ptr sentinel v ≠ z := fun z hz =>
        ptr_ne (hat.above.ne_sentinel z hz) fun hzv => hat.not_mem hzv hz
      rw [pathNodes_append] at hapart
      refine (hothers _ ?_ (hapart _ ?_) (hapart _ ?_)).trans hparent
      · exact ptr_ne hy fun hyv => hmem ((hplug x v ▸ inorder_plug_perm _ v).mem_iff.mpr
          (List.mem_append_left _ hyv))
      · simp [pathNodes, ptr_mem hl]
      · exact List.mem_append_left _ (ptr_plug_mem (by simp))
  rw [hplug] at hmoved
  obtain ⟨h', hrun, hmended⟩ := deleteEnd_spec hmoved hparent' hred hblack hfuel
  refine ⟨h', ?_, hmended⟩
  rw [delete_eq hnodes (if_pos hyx), hyd]
  exact hrun

/-- Deletion takes a node out of the tree, and the tree is a red-black tree. -/
theorem delete_spec {fuel m : ℕ} (hr : Realizes sentinel callback h (plug path (.node c l x r)))
    (ht : RB (plug path (.node c l x r)) .black m)
    (hfuel : (plug path (.node c l x r)).inorder.length + 1 < fuel) :
    ∃ h', delete sentinel fuel x h = some h' ∧
      Mended sentinel callback h' (before path ++ (l.inorder ++ r.inorder) ++ after path) := by
  obtain ⟨-, -, -, hcl, hcr, hrl, hrr⟩ := hr.at.here
  have hperm := inorder_plug_perm path (.node c l x r)
  have hlen : path.length + 1 < fuel := by
    have := length_le_pathNodes path
    have := hperm.length_eq
    rw [List.length_append] at this
    omega
  by_cases hl : l = .nil
  · subst hl
    have hnodes : deleteNodes sentinel fuel x h = some (x, ptr sentinel r) := by
      unfold deleteNodes
      rw [if_pos (by exact hcl), hcr]
    obtain ⟨h', hrun, hmended⟩ := delete_replaced (s := .left) hr ht hlen hnodes
    refine ⟨h', hrun, ?_⟩
    rwa [inorder_plug, ← List.append_assoc] at hmended
  have hnl : h.child .left x ≠ sentinel := by rwa [hcl, Ne, hrl.ptr_eq_sentinel]
  by_cases hrnil : r = .nil
  · subst hrnil
    have hnodes : deleteNodes sentinel fuel x h = some (x, ptr sentinel l) := by
      unfold deleteNodes
      rw [if_neg hnl, if_pos (by exact hcr), hcl]
    obtain ⟨h', hrun, hmended⟩ := delete_replaced (s := .right) hr ht hlen hnodes
    refine ⟨h', hrun, ?_⟩
    rw [inorder_plug, ← List.append_assoc] at hmended
    simpa [inorder] using hmended
  · have hlenr : r.inorder.length ≤ fuel := by
      have := hperm.length_eq
      simp only [inorder, List.length_append, List.length_cons] at this
      omega
    obtain ⟨lp, d, y, v, rfl, hbefore, hmin⟩ := branchMin_spec hrr hrnil hlenr
    have hnodes : deleteNodes sentinel fuel x h = some (y, ptr sentinel v) := by
      have hchild : h.child .right y = ptr sentinel v := by
        rw [plug_next] at hr
        exact (Realizes.node (s := .left) hr).2.2.2.2
      unfold deleteNodes
      rw [if_neg hnl, if_neg (by rwa [hcr, hrr.ptr_eq_sentinel]), hcr, hmin, ← hchild]
      rfl
    have hlen' : (lp ++ ⟨.right, c, y, l⟩ :: path).length + 1 < fuel := by
      have hle := length_le_pathNodes (lp ++ ⟨.right, c, x, l⟩ :: path)
      have hlen := (inorder_plug_perm (lp ++ ⟨.right, c, x, l⟩ :: path)
        (.node d .nil y v)).length_eq
      rw [← plug_next, List.length_append] at hlen
      simp only [List.length_append, List.length_cons] at hle ⊢
      omega
    obtain ⟨h', hrun, hmended⟩ := delete_moved hr ht hl hlen' hnodes
    refine ⟨h', hrun, ?_⟩
    rw [inorder_plug, before_append, after_append, hbefore] at hmended
    simpa [before, after, inorder, inorder_plug, hbefore] using hmended

end Njs.Rbtree
