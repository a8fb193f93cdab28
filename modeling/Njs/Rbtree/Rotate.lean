import Njs.Rbtree.Shape

/-!
# Rotations and colors

What the three building blocks of the fix-ups do to the tree in memory: a node gets a color, a
node is rotated with its child, and a subtree takes the place of another one.
-/

namespace Njs.Rbtree

open Njs.Lib Njs.Lib.ColorTree

variable {P : Type} [DecidableEq P] {sentinel callback : P} {h : Heap P}
  {path : List (Crumb P)} {s : Side} {c c' : Color} {a b d t u : ColorTree P} {x y : P}

/-! ## Colors -/

/-- The side of a node below its parent. -/
theorem sideOf_eq (hp : RepPath sentinel h path x) (hx : x ≠ sentinel)
    (hmem : x ∉ pathNodes path) : sideOf x (owner sentinel path) h = endSide path := by
  unfold sideOf
  cases path with
  | nil => exact if_pos (Eq.symm hp)
  | cons crumb up =>
    obtain ⟨s, c, y, u⟩ := crumb
    obtain ⟨-, -, -, hchild, hother, -, -⟩ := hp
    cases s with
    | left => exact if_pos hchild.symm
    | right =>
      refine if_neg fun heq => ?_
      have hptr : x = ptr sentinel u := heq.trans hother
      rcases ptr_eq_or_mem u with ⟨-, hnil⟩ | hu
      · exact hx (hptr.trans hnil)
      · exact hmem (by simp [pathNodes, hptr, hu])

theorem Realizes.colored (hr : Realizes sentinel callback h (plug path (join s c t x u))) :
    Realizes sentinel callback (h.setColor x c') (plug path (join s c' t x u)) := by
  obtain ⟨hpath, htree, hnd⟩ := hr.at
  obtain ⟨hx, hc, hq, ht, hu, hrt, hru⟩ := rep_join.mp htree
  have hperm := inorder_join_perm s c t x u
  have hnd' : (x :: (t.inorder ++ u.inorder ++ pathNodes path)).Nodup :=
    (hperm.append_right _).nodup_iff.mp hnd
  rw [List.nodup_cons, List.mem_append, List.mem_append] at hnd'
  have hsame : ∀ z ≠ x, SameAt h (h.setColor x c') z := fun z hz =>
    ⟨fun s => rfl, rfl, by rw [Heap.setColor_color, if_neg hz]⟩
  refine At.realizes ⟨?_, rep_join.mpr ⟨hx, ?_, hq, ht, hu, ?_, ?_⟩, ?_⟩ ?_ hr.callback
  · rw [ptr_join] at hpath ⊢
    refine hpath.congr (fun z hz => hsame z ?_) rfl
    rintro rfl
    exact hnd'.1 (Or.inr hz)
  · rw [Heap.setColor_color, if_pos rfl]
  · refine hrt.congr fun z hz => hsame z ?_
    rintro rfl
    exact hnd'.1 (Or.inl (Or.inl hz))
  · refine hru.congr fun z hz => hsame z ?_
    rintro rfl
    exact hnd'.1 (Or.inl (Or.inr hz))
  · have hsame := @inorder_join_congr _ s c c' t t u u x rfl rfl
    rwa [← hsame]
  · rw [Heap.setColor_color, if_neg (Ne.symm hx)]
    exact hr.black

/-- The root of a subtree gets a color. -/
theorem Realizes.painted (hr : Realizes sentinel callback h (plug path t)) (ht : t ≠ .nil) :
    Realizes sentinel callback (h.setColor (ptr sentinel t) c') (plug path (t.paint c')) := by
  obtain ⟨c, u, x, v, rfl⟩ := exists_join .left ht
  rw [ptr_join, paint_join]
  exact hr.colored

/-! ## Rotations -/

/-- The memory after a rotation, if the nodes and the pointers are apart. -/
theorem rotate_eq {pb q : P} {side : Side} (hy : h.child s.flip x = y) (hb : h.child s y = pb)
    (hq : h.parent x = q) (hpx : x ≠ pb) (hqx : q ≠ x) (hqy : q ≠ y)
    (hside : sideOf x q h = side) :
    rotate s x h = ((((((h.setChild s.flip x pb).setParent pb x).setChild s y x).setParent y
      q).setChild side q y).setParent x y) := by
  have hpb : (h.setChild s.flip x pb).child s y = pb := by
    rw [Heap.setChild_child, if_neg (by simp), hb]
  have hparent : ((h.setChild s.flip x pb).setParent pb x).parent x = q := by
    rw [Heap.setParent_parent, if_neg hpx]
    exact hq
  have hlink : (((h.setChild s.flip x pb).setParent pb x).setChild s y x).child .left q =
      h.child .left q := by
    rw [Heap.setChild_child, if_neg fun hand => hqy hand.2, Heap.setParent_child,
      Heap.setChild_child, if_neg fun hand => hqx hand.2]
  unfold rotate parentRelink
  unfold sideOf at hside
  simp only [hy, hb, hpb, Heap.setChild_parent, hparent, Heap.setParent_child, hlink, hside]

theorem Realizes.rotated
    (hr : Realizes sentinel callback h (plug path (join s c a x (join s c' b y d)))) :
    Realizes sentinel callback (rotate s x h) (plug path (join s c' (join s c a x b) y d)) := by
  obtain ⟨habove, hhere, hnd⟩ := hr.at
  rw [ptr_join] at habove
  obtain ⟨hx, hcx, hqx, hax, hyx, hra, hry⟩ := rep_join.mp hhere
  rw [ptr_join] at hyx
  obtain ⟨hy, hcy, hqy, hby, hdy, hrb, hrd⟩ := rep_join.mp hry
  have hperm : ((join s c a x (join s c' b y d)).inorder ++ pathNodes path).Perm
      (x :: y :: (a.inorder ++ (b.inorder ++ (d.inorder ++ pathNodes path)))) := by
    have h₁ := inorder_join_perm s c a x (join s c' b y d)
    have h₂ := inorder_join_perm s c' b y d
    have h₃ := h₁.trans (.cons x ((h₂.append_left a.inorder).trans List.perm_middle))
    simpa using h₃.append_right (pathNodes path)
  have hnd' := hperm.nodup_iff.mp hnd
  simp only [List.nodup_cons, List.nodup_append, List.mem_cons, List.mem_append, not_or] at hnd'
  obtain ⟨⟨hxy, hxa, hxb, hxd, hxw⟩, ⟨hya, hyb, hyd, hyw⟩, -, ⟨hndb, ⟨-, -, hdw⟩, hbdw⟩, habdw⟩ :=
    hnd'
  have hqx' := owner_ne hx hxw
  have hqy' := owner_ne hy hyw
  have hpx := ptr_ne hx hxb
  have hside : sideOf x (owner sentinel path) h = endSide path := sideOf_eq habove hx hxw
  rw [rotate_eq hyx hby hqx (Ne.symm hpx) hqx' hqy' hside]
  generalize hh : ((((((h.setChild s.flip x (ptr sentinel b)).setParent (ptr sentinel b)
    x).setChild s y x).setParent y (owner sentinel path)).setChild (endSide path)
    (owner sentinel path) y).setParent x y) = h'
  have hchild : ∀ z s', z ≠ x → z ≠ y → (z ≠ owner sentinel path ∨ s' ≠ endSide path) →
      h'.child s' z = h.child s' z := by
    intro z s' hzx hzy hend
    rw [← hh, Heap.setParent_child, Heap.setChild_child, if_neg (by tauto), Heap.setParent_child,
      Heap.setChild_child, if_neg (by tauto), Heap.setParent_child, Heap.setChild_child,
      if_neg (by tauto)]
  have hparent : ∀ z, z ≠ x → z ≠ y → z ≠ ptr sentinel b → h'.parent z = h.parent z := by
    intro z hzx hzy hzb
    simp only [← hh, Heap.setParent_parent, Heap.setChild_parent, if_neg hzx, if_neg hzy,
      if_neg hzb]
  have hcolor : h'.color = h.color := by simp only [← hh, Heap.setParent_color,
    Heap.setChild_color]
  have hqlink : h'.child (endSide path) (owner sentinel path) = y := by
    rw [← hh, Heap.setParent_child, Heap.setChild_child, if_pos ⟨rfl, rfl⟩]
  have hxs : h'.child s x = ptr sentinel a := by
    rw [← hh, Heap.setParent_child, Heap.setChild_child, if_neg fun hand => hqx' hand.2.symm,
      Heap.setParent_child, Heap.setChild_child, if_neg fun hand => hxy hand.2,
      Heap.setParent_child, Heap.setChild_child, if_neg (by simp), hax]
  have hxf : h'.child s.flip x = ptr sentinel b := by
    rw [← hh, Heap.setParent_child, Heap.setChild_child, if_neg fun hand => hqx' hand.2.symm,
      Heap.setParent_child, Heap.setChild_child, if_neg (by simp), Heap.setParent_child,
      Heap.setChild_child, if_pos ⟨rfl, rfl⟩]
  have hys : h'.child s y = x := by
    rw [← hh, Heap.setParent_child, Heap.setChild_child, if_neg fun hand => hqy' hand.2.symm,
      Heap.setParent_child, Heap.setChild_child, if_pos ⟨rfl, rfl⟩]
  have hyf : h'.child s.flip y = ptr sentinel d := by
    rw [← hh, Heap.setParent_child, Heap.setChild_child, if_neg fun hand => hqy' hand.2.symm,
      Heap.setParent_child, Heap.setChild_child, if_neg (by simp), Heap.setParent_child,
      Heap.setChild_child, if_neg fun hand => hxy hand.2.symm, hdy]
  have hxp : h'.parent x = y := by rw [← hh, Heap.setParent_parent, if_pos rfl]
  have hyp : h'.parent y = owner sentinel path := by
    rw [← hh, Heap.setParent_parent, if_neg (Ne.symm hxy), Heap.setChild_parent,
      Heap.setParent_parent, if_pos rfl]
  have hbp : ptr sentinel b ≠ y → h'.parent (ptr sentinel b) = x := by
    intro hne
    rw [← hh, Heap.setParent_parent, if_neg hpx, Heap.setChild_parent, Heap.setParent_parent,
      if_neg hne, Heap.setChild_parent, Heap.setParent_parent, if_pos rfl]
  refine At.realizes ⟨?_, rep_join.mpr ⟨hy, ?_, hyp, ?_, hyf, rep_join.mpr ⟨hx, ?_, hxp, hxs, hxf,
    ?_, ?_⟩, ?_⟩, ?_⟩ ?_ ?_
  · rw [ptr_join]
    have hw : ∀ z ∈ pathNodes path, z ∉ b.inorder := fun z hz hzb =>
      hbdw z hzb z (Or.inr hz) rfl
    refine habove.relink hnd.of_append_right (fun z hz s' hend => ?_) (fun z hz => ?_)
      (fun z _ => congrFun hcolor z) (fun hne => ?_) hqlink
    · exact hchild z s' (ne_of_mem_of_not_mem hz hxw) (ne_of_mem_of_not_mem hz hyw) hend
    · exact hparent z (ne_of_mem_of_not_mem hz hxw) (ne_of_mem_of_not_mem hz hyw)
        (Ne.symm (ptr_ne (habove.ne_sentinel z hz) (hw z hz)))
    · refine hchild _ _ (Ne.symm hx) (Ne.symm hy) (Or.inl fun heq => ?_)
      rcases owner_eq_or_mem path with ⟨hnil, -⟩ | hmem
      · exact hne hnil
      · exact habove.ne_sentinel _ hmem heq.symm
  · rw [hcolor, hcy]
  · rw [ptr_join, hys]
  · rw [hcolor, hcx]
  · refine hra.congr fun z hz => ⟨fun s' => ?_, ?_, congrFun hcolor z⟩
    · exact hchild z s' (ne_of_mem_of_not_mem hz hxa) (ne_of_mem_of_not_mem hz hya)
        (Or.inl (Ne.symm (owner_ne (hra.ne_sentinel z hz) fun hzw =>
          habdw z hz z (Or.inr (Or.inr hzw)) rfl)))
    · exact hparent z (ne_of_mem_of_not_mem hz hxa) (ne_of_mem_of_not_mem hz hya)
        (Ne.symm (ptr_ne (hra.ne_sentinel z hz) fun hzb => habdw z hz z (Or.inl hzb) rfl))
  · refine hrb.reparent hndb (fun z hz s' => ?_) (fun z _ => congrFun hcolor z)
      (fun z hz hne => ?_) (hbp (ptr_ne hy hyb))
    · exact hchild z s' (ne_of_mem_of_not_mem hz hxb) (ne_of_mem_of_not_mem hz hyb)
        (Or.inl (Ne.symm (owner_ne (hrb.ne_sentinel z hz) fun hzw =>
          hbdw z hz z (Or.inr hzw) rfl)))
    · exact hparent z (ne_of_mem_of_not_mem hz hxb) (ne_of_mem_of_not_mem hz hyb) hne
  · refine hrd.congr fun z hz => ⟨fun s' => ?_, ?_, congrFun hcolor z⟩
    · exact hchild z s' (ne_of_mem_of_not_mem hz hxd) (ne_of_mem_of_not_mem hz hyd)
        (Or.inl (Ne.symm (owner_ne (hrd.ne_sentinel z hz) fun hzw => hdw z hz z hzw rfl)))
    · exact hparent z (ne_of_mem_of_not_mem hz hxd) (ne_of_mem_of_not_mem hz hyd)
        (Ne.symm (ptr_ne (hrd.ne_sentinel z hz) fun hzb => hbdw z hzb z (Or.inl hz) rfl))
  · rwa [← inorder_rotate s c c']
  · rw [hcolor]
    exact hr.black
  · rw [hchild _ _ (Ne.symm hx) (Ne.symm hy) ?_]
    · exact hr.callback
    · rcases @owner_eq_or_mem _ sentinel path with ⟨rfl, -⟩ | hmem
      · exact Or.inr (by simp [endSide])
      · exact Or.inl (Ne.symm (habove.ne_sentinel _ hmem))

end Njs.Rbtree
