import Njs.Rbtree.Rotate

/-!
# The fix-up of a deletion

After a black node was taken out, the subtree at the end of a path is one black node short. A
round of the fix-up makes it whole, or leaves the parent's subtree short.
-/

namespace Njs.Rbtree

open Njs.Lib Njs.Lib.ColorTree

variable {P : Type} {sentinel callback : P} {h : Heap P} {path up : List (Crumb P)} {s : Side}
  {c c' : Color} {a b t u v : ColorTree P} {x y z p : P} {n : ℕ}

/-- The tree at the end of a path needs one more black node; a red root only needs to be
black. -/
def Short (path : List (Crumb P)) (t : ColorTree P) : Prop :=
  (∃ n, RB t .black n ∧ RBPath path .black (n + 1)) ∨
    t.color = .red ∧ ∃ n, RB (t.paint .black) .black n ∧ RBPath path .black n

theorem Short.of_rb (ht : RB t c n) (hp : RBPath path c' (n + 1)) : Short path t := by
  cases c with
  | black => exact Or.inl ⟨n, ht, hp.to_black⟩
  | red => exact Or.inr ⟨ht.color_eq, n + 1, ht.paint_black, hp.to_black⟩

/-- What the fix-up gives: a red-black tree of the same nodes. -/
def Mended (sentinel callback : P) (h : Heap P) (nodes : List P) : Prop :=
  ∃ t m, Realizes sentinel callback h t ∧ RB t .black m ∧ t.inorder = nodes

variable [DecidableEq P]

/-! ## Where a child of the sibling is red -/

/-- The last rotation. -/
theorem Realizes.rotateSibling
    (hr : Realizes sentinel callback h (plug up (join s c u p (join s c' a y b))))
    (hb : b ≠ .nil) : Realizes sentinel callback (deleteRotate s p y h)
      (plug up (join s c (join s .black u p a) y (b.paint .black))) := by
  have hpc := hr.node.2.1
  have hy : Realizes sentinel callback (h.setColor y c)
    (plug up (join s c u p (join s c a y b))) := by
    rw [← plug_far] at hr ⊢
    exact Realizes.colored hr
  have hp := @Realizes.colored _ _ _ _ _ _ _ _ (.black) _ _ _ hy
  have hfar : Realizes sentinel callback (((h.setColor y c).setColor p .black).setColor
      (ptr sentinel b) .black) (plug up (join s .black u p (join s c a y (b.paint .black)))) := by
    rw [← plug_far, ← plug_far] at hp ⊢
    exact hp.painted hb
  have hchild : ((h.setColor y c).setColor p .black).child s.flip y = ptr sentinel b := by
    rw [← plug_far] at hp
    exact hp.node.2.2.2.2
  unfold deleteRotate
  simp only [hpc, hchild]
  exact hfar.rotated

/-- The tree is whole after the last rotation. -/
theorem mended_of_rotate (hr : Realizes sentinel callback h
    (plug up (join s c u p (join s c' a y b))))
    (hb : b ≠ .nil) (hu : RB u .black n) {ca : Color} (ha : RB a ca n)
    (hb' : RB (b.paint .black) .black (n + 1))
    (hup : RBPath (⟨s, c, p, v⟩ :: up) .black (n + 1)) :
    Mended sentinel callback (deleteRotate s p y h)
      (plug up (join s c u p (join s c' a y b))).inorder := by
  obtain ⟨m, hm⟩ := hup.plug_join (y := y) (hu.join_black s p ha) hb'
  refine ⟨_, m, hr.rotateSibling hb, hm, inorder_plug_congr ?_⟩
  calc (join s c (join s .black u p a) y (b.paint .black)).inorder
      = (join s c (join s .black u p a) y b).inorder := inorder_join_congr rfl (inorder_paint ..)
    _ = (join s c u p (join s c' a y b)).inorder := (inorder_rotate ..).symm

/-- The result of a round: the fix-up is done, or it goes on with the subtree of `p` at the end
of the path `up`. -/
def RoundDone (sentinel callback : P) (up : List (Crumb P)) (c : Color) (p : P) (nodes : List P) :
    Bool × Heap P → Prop
  | (true, h) => ∃ t, Realizes sentinel callback h (plug up t) ∧ t ≠ .nil ∧ ptr sentinel t = p ∧
      t.color = c ∧ Short up t ∧ (plug up t).inorder = nodes
  | (false, h) => Mended sentinel callback h nodes

/-- The part of a round where the sibling is black. -/
theorem deleteSibling_spec (hr : Realizes sentinel callback h (plug up (join s c u p v)))
    (hu : RB u .black n) (hup : RBPath (⟨s, c, p, v⟩ :: up) .black (n + 1))
    (hv : v.color = .black) :
    RoundDone sentinel callback up c p (plug up (join s c u p v)).inorder
      (deleteSibling s p (ptr sentinel v) h) := by
  obtain ⟨cv, hvrb⟩ := hup.sibling
  have hvne : v ≠ .nil := by
    rintro rfl
    cases hvrb
  obtain ⟨cv', a, y, b, rfl⟩ := exists_join s hvne
  obtain rfl : cv' = .black := by simpa using hv
  obtain ⟨rfl, k, ca, cb, hk, ha, hb⟩ := hvrb.of_join_black
  obtain rfl : n = k := by omega
  have hsib := hr
  rw [← plug_far] at hsib
  obtain ⟨hyne, -, -, hya, hyb⟩ := hsib.node
  have hfar : h.color (ptr sentinel b) = b.color := by
    rw [← plug_far] at hsib
    exact hsib.color_eq
  have hred : Realizes sentinel callback (h.setColor y .red)
      (plug (⟨s.flip, c, p, u⟩ :: up) (join s .red a y b)) := hsib.colored
  have hnear : (h.setColor y .red).color (ptr sentinel a) = a.color :=
    @Realizes.color_eq _ _ _ _ (⟨s, .red, y, b⟩ :: ⟨s.flip, c, p, u⟩ :: up) _ hred
  rw [ptr_join]
  unfold deleteSibling
  simp only [hyb, hfar]
  by_cases hbc : b.color = .black
  · obtain rfl : cb = .black := hb.color_eq.symm.trans hbc
    rw [if_pos hbc]
    simp only [Heap.setColor_child, hya, hnear]
    by_cases hac : a.color = .black
    · obtain rfl : ca = .black := ha.color_eq.symm.trans hac
      rw [if_pos hac]
      rw [plug_far] at hred
      refine ⟨_, hred, by simp, ptr_join, color_join .., ?_, ?_⟩
      · cases hup with
        | red _ hup =>
          refine Or.inr ⟨color_join .., n + 1, ?_, hup.to_black⟩
          rw [paint_join]
          exact hu.join_black s p (ha.join_red s y hb)
        | black _ hup => exact Or.inl ⟨n + 1, hu.join_black s p (ha.join_red s y hb), hup⟩
      · exact inorder_plug_congr (inorder_join_congr rfl (inorder_join_congr rfl rfl))
    · obtain rfl : ca = .red := ha.eq_red hac
      rw [if_neg hac]
      obtain ⟨ca, a₁, z, a₂, rfl⟩ := exists_join s (ne_nil_of_red ha.color_eq)
      obtain rfl : ca = .red := by simpa using ha.color_eq
      obtain ⟨-, ha₁, ha₂⟩ := ha.of_join_red
      rw [ptr_join]
      have hz : Realizes sentinel callback ((h.setColor y .red).setColor z .black)
          (plug (⟨s.flip, c, p, u⟩ :: up) (join s .red (join s .black a₁ z a₂) y b)) :=
        @Realizes.colored _ _ _ _ _ (⟨s, .red, y, b⟩ :: ⟨s.flip, c, p, u⟩ :: up) _ _ _ _ _ _ hred
      rw [← join_flip s .red, ← join_flip s .black] at hz
      have hrot := hz.rotated
      rw [join_flip, join_flip] at hrot
      rw [plug_far] at hrot
      have hchild := hrot.node.2.2.2.2
      rw [ptr_join] at hchild
      rw [hchild]
      have hmended := mended_of_rotate hrot (by simp) hu ha₁
        (by rw [paint_join]; exact ha₂.join_black s y hb) hup
      obtain ⟨t, m, ht, hm, hin⟩ := hmended
      refine ⟨t, m, ht, hm, hin.trans (inorder_plug_congr (inorder_join_congr rfl ?_))⟩
      exact inorder_rotate ..
  · obtain rfl : cb = .red := hb.eq_red hbc
    rw [if_neg hbc]
    exact mended_of_rotate hr (ne_nil_of_red hb.color_eq) hu ha hb.paint_black hup

/-- One round. -/
theorem deleteRound_spec (hr : Realizes sentinel callback h (plug (⟨s, c, p, v⟩ :: up) u))
    (hu : RB u .black n) (hup : RBPath (⟨s, c, p, v⟩ :: up) .black (n + 1)) :
    ∃ up' c', RoundDone sentinel callback up' c' p (plug (⟨s, c, p, v⟩ :: up) u).inorder
      (deleteRound s p h) ∧ (up'.length ≤ up.length ∨ c' = .red) := by
  obtain ⟨cv, hv⟩ := hup.sibling
  rw [plug_cons] at hr ⊢
  have hpv := hr.node.2.2.2.2
  have hcolor : h.color (ptr sentinel v) = v.color := by
    rw [← plug_far] at hr
    exact hr.color_eq
  unfold deleteRound
  simp only [hpv, hcolor]
  by_cases hvc : v.color = .black
  · rw [if_neg (by simpa using hvc)]
    exact ⟨up, c, deleteSibling_spec hr hu hup hvc, Or.inl (Nat.le_refl _)⟩
  · rw [if_pos hvc]
    obtain rfl : cv = .red := hv.eq_red hvc
    cases hup with
    | red hv' _ => exact absurd hv'.color_eq hvc
    | black _ hup =>
      obtain ⟨cv, a, y, b, rfl⟩ := exists_join s (ne_nil_of_red hv.color_eq)
      obtain rfl : cv = .red := by simpa using hv.color_eq
      obtain ⟨-, ha, hb⟩ := hv.of_join_red
      have hy : Realizes sentinel callback (h.setColor y .black)
          (plug up (join s .black u p (join s .black a y b))) := by
        rw [← plug_far] at hr ⊢
        exact hr.colored
      have hrot : Realizes sentinel callback
          (rotate s p ((h.setColor y .black).setColor p .red))
          (plug (⟨s, .black, y, b⟩ :: up) (join s .red u p a)) := (hy.colored).rotated
      have hpath : RBPath (⟨s, .red, p, a⟩ :: ⟨s, .black, y, b⟩ :: up) .black (n + 1) :=
        .red ha (.black hb hup)
      have hchild := hrot.node.2.2.2.2
      have hdone := deleteSibling_spec hrot hu hpath ha.color_eq
      rw [ptr_join, hchild]
      refine ⟨⟨s, .black, y, b⟩ :: up, .red, ?_, Or.inr rfl⟩
      have hin : (plug (⟨s, .black, y, b⟩ :: up) (join s .red u p a)).inorder =
          (plug up (join s .black u p (join s .red a y b))).inorder :=
        inorder_plug_congr (inorder_rotate ..).symm
      rwa [hin] at hdone

/-! ## All rounds -/

omit [DecidableEq P] in
/-- The root of a tree is not at the end of a path that is not empty. -/
theorem ptr_ne_root (hr : Realizes sentinel callback h (plug path t)) (hp : path ≠ []) :
    ptr sentinel t ≠ root sentinel h := by
  have hroot : root sentinel h = ptr sentinel (plug path t) := hr.root
  have hmem : ptr sentinel (plug path t) ∈ pathNodes path := ptr_plug_mem hp
  rw [hroot]
  refine ptr_ne (hr.at.above.ne_sentinel _ hmem) fun ht => ?_
  exact hr.at.not_mem ht hmem

/-- The side of a subtree that has a sibling. -/
theorem sideOf_ptr (hr : Realizes sentinel callback h (plug (⟨s, c, p, v⟩ :: up) t))
    (hv : v ≠ .nil) : sideOf (ptr sentinel t) p h = s := by
  obtain ⟨-, -, -, hchild, hother, hrv, -⟩ := hr.at.above
  unfold sideOf
  cases s with
  | left => exact if_pos hchild.symm
  | right =>
    refine if_neg fun heq => ?_
    have hmem : ptr sentinel v ∈ v.inorder := ptr_mem hv
    refine ptr_ne (hrv.ne_sentinel _ hmem) (fun ht => ?_) (heq.trans hother)
    exact hr.at.not_mem ht (by simp [pathNodes, hmem])

/-- The last step of the fix-up. -/
theorem mended_of_paint (hr : Realizes sentinel callback h (plug path t))
    (hp : RBPath path .black n)
    (ht : RB (t.paint .black) .black n) :
    Mended sentinel callback (h.setColor (ptr sentinel t) .black) (plug path t).inorder := by
  obtain ⟨m, hm⟩ := hp.plug ht
  refine ⟨_, m, ?_, hm, inorder_plug_congr (inorder_paint ..)⟩
  by_cases hne : t = .nil
  · subst hne
    have hcolor : ∀ z, (h.setColor sentinel .black).color z = h.color z := by
      intro z
      rw [Heap.setColor_color]
      split
      · rename_i heq
        rw [heq, hr.black]
      · rfl
    exact hr.congr (fun z _ => ⟨fun _ => rfl, rfl, hcolor z⟩) (fun _ => rfl) (hcolor _)
  · exact hr.painted hne

/-- The fix-up makes a tree whole that is short at the end of a path. -/
theorem deleteFixup_spec {fuel : ℕ} (hr : Realizes sentinel callback h (plug path t))
    (hshort : Short path t) (hparent : h.parent (ptr sentinel t) = owner sentinel path)
    (hfuel : path.length + 1 < fuel ∨ t.color = .red ∧ 0 < fuel) :
    ∃ h', deleteFixup sentinel fuel (ptr sentinel t) h = some h' ∧
      Mended sentinel callback h' (plug path t).inorder := by
  induction fuel generalizing h path t with
  | zero => omega
  | succ fuel ih =>
    rw [deleteFixup]
    by_cases hnil : path = []
    · subst hnil
      have hroot : ptr sentinel t = root sentinel h := Eq.symm hr.root
      rw [if_neg fun hand => hand.1 hroot]
      refine ⟨_, rfl, ?_⟩
      rcases hshort with ⟨n, ht, -⟩ | ⟨-, n, ht, -⟩
      · obtain ⟨m, hm⟩ := ht.exists_paint_black
        exact mended_of_paint hr .root hm
      · exact mended_of_paint hr .root ht
    · have hne := ptr_ne_root hr hnil
      rw [hr.color_eq, hparent]
      rcases hshort with ⟨n, ht, hp⟩ | ⟨hred, n, ht, hp⟩
      · rw [if_pos ⟨hne, ht.color_eq⟩]
        obtain ⟨⟨s, c, p, v⟩, up, rfl⟩ := List.exists_cons_of_ne_nil hnil
        have hv : v ≠ .nil := by
          obtain ⟨d, hv⟩ := hp.sibling
          rintro rfl
          cases hv
        have hside := sideOf_ptr hr hv
        obtain ⟨up', c', hdone, hshorter⟩ := deleteRound_spec hr ht hp
        simp only [owner, hside]
        generalize deleteRound s p h = result at hdone
        obtain ⟨again, h₁⟩ := result
        cases again with
        | false => exact ⟨h₁, rfl, hdone⟩
        | true =>
          obtain ⟨t', hr', hne', rfl, hc', hshort', hin⟩ := hdone
          have hlen : up.length + 1 < fuel := by
            rcases hfuel with hfuel | ⟨hred, -⟩
            · simp only [List.length_cons] at hfuel
              omega
            · exact absurd (ht.color_eq.symm.trans hred) (by simp)
          obtain ⟨h₂, hrun, hmended⟩ := ih hr' hshort' (hr'.parent_eq hne') (by
            rcases hshorter with hle | hred
            · exact Or.inl (by omega)
            · exact Or.inr ⟨hc'.trans hred, by omega⟩)
          exact ⟨h₂, hrun, hin ▸ hmended⟩
      · rw [if_neg fun hand => by simp [hred] at hand]
        exact ⟨_, rfl, mended_of_paint hr hp ht⟩

end Njs.Rbtree
