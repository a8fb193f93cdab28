import Njs.Rbtree.Order
import Njs.Rbtree.Rotate

/-!
# Insertion

A new node is put where the comparisons lead, which keeps the order. The fix-up keeps the order
of the nodes and makes the tree a red-black tree again.
-/

namespace Njs.Rbtree

open Njs.Lib Njs.Lib.ColorTree

variable {P : Type} [DecidableEq P] {sentinel callback : P} {h : Heap P}
  {path : List (Crumb P)} {s : Side} {t u v : ColorTree P} {x p g : P}

/-! ## The fix-up -/

/-- The second rotation of the fix-up, after which the tree is a red-black tree. -/
theorem Realizes.rotateGrandparent
    (hr : Realizes sentinel callback h (plug path (join s .black (join s .red t p u) g v))) :
    Realizes sentinel callback (rotate s.flip g ((h.setColor p .black).setColor g .red))
      (plug path (join s.flip .black (join s.flip .red v g u) p t)) := by
  have hp : Realizes sentinel callback (h.setColor p .black)
      (plug (⟨s, .black, g, v⟩ :: path) (join s .black t p u)) :=
    Realizes.colored hr
  have hg : Realizes sentinel callback ((h.setColor p .black).setColor g .red)
      (plug path (join s .red (join s .black t p u) g v)) :=
    Realizes.colored hp
  rw [← join_flip s .red, ← join_flip s .black] at hg
  exact hg.rotated

theorem insertRotate_outer {a b : ColorTree P}
    (hr : Realizes sentinel callback h
      (plug path (join s .black (join s .red (join s .red a x b) p u) g v))) :
    Realizes sentinel callback (insertRotate s x p g h)
      (plug path (join s.flip .black (join s.flip .red v g u) p (join s .red a x b))) := by
  have hat : At sentinel h (⟨s, .red, p, u⟩ :: ⟨s, .black, g, v⟩ :: path) (join s .red a x b) :=
    Realizes.at hr
  obtain ⟨hx, -, hxp, -⟩ := rep_join.mp hat.here
  have hne : x ≠ h.child s.flip p := by
    obtain ⟨-, -, -, -, hu, -⟩ := hat.above
    rw [hu]
    refine Ne.symm (ptr_ne hx fun hmem => hat.not_mem (z := x) ?_ ?_)
    · exact (inorder_join_perm s .red a x b).mem_iff.mpr (List.mem_cons_self ..)
    · simp [pathNodes, hmem]
  unfold insertRotate
  rw [if_neg hne]
  simp only [hxp]
  exact hr.rotateGrandparent

theorem insertRotate_inner {a b : ColorTree P}
    (hr : Realizes sentinel callback h
      (plug path (join s .black (join s.flip .red (join s .red a x b) p u) g v))) :
    Realizes sentinel callback (insertRotate s x p g h)
      (plug path (join s.flip .black (join s.flip .red v g b) x (join s .red u p a))) := by
  have hat : At sentinel h (⟨s.flip, .red, p, u⟩ :: ⟨s, .black, g, v⟩ :: path)
      (join s .red a x b) := Realizes.at hr
  obtain ⟨-, -, -, heq, -⟩ := hat.above
  rw [ptr_join] at heq
  rw [join_flip] at hr
  have hrot : Realizes sentinel callback (rotate s p h)
      (plug (⟨s, .black, g, v⟩ :: path) (join s .red (join s .red u p a) x b)) :=
    Realizes.rotated hr
  have hat' : At sentinel (rotate s p h) (⟨s, .red, x, b⟩ :: ⟨s, .black, g, v⟩ :: path)
      (join s .red u p a) := Realizes.at hrot
  obtain ⟨-, -, hpx, -⟩ := rep_join.mp hat'.here
  unfold insertRotate
  rw [if_pos heq.symm]
  simp only [hpx]
  exact hrot.rotateGrandparent

/-- The fix-up of a red node gives a tree that is red-black but for the color of its root. -/
theorem insertFixup_spec {fuel n : ℕ} (hfuel : path.length < fuel)
    (hr : Realizes sentinel callback h (plug path t)) (ht : RB t .red n)
    (hp : RBPath path .black n) :
    ∃ h' t' c m, insertFixup fuel (ptr sentinel t) h = some h' ∧
      Realizes sentinel callback h' t' ∧ RB t' c m ∧ t'.inorder = (plug path t).inorder := by
  induction fuel generalizing h path t n with
  | zero => omega
  | succ fuel ih =>
    have hne : t ≠ .nil := ne_nil_of_red ht.color_eq
    have hpt := hr.parent_eq hne
    cases hp with
    | root =>
      refine ⟨h, t, _, n, ?_, hr, ht, rfl⟩
      rw [insertFixup, hpt]
      exact if_pos hr.black
    | @black s p u up c c' n hu hup =>
      obtain ⟨m, hm⟩ := RBPath.plug (.black (c := .red) hu hup) ht
      refine ⟨h, _, _, m, ?_, hr, hm, rfl⟩
      have hblack : h.color p = .black := hr.at.above.2.1
      rw [insertFixup]
      simp only [hpt, owner]
      rw [if_pos hblack]
    | @red s p u up n hu hup =>
      cases hup with
      | @black s' g v up' c c' n hv hup' =>
        obtain ⟨hpne, hpred, hpg, hst, -, -, hup⟩ := hr.at.above
        obtain ⟨hgne, -, -, -, hgv, hrv, -⟩ := hup
        have hnot : h.color p ≠ .black := by simp [hpred]
        have hside : sideOf p g h = s' := by
          have hat : At sentinel h (⟨s', .black, g, v⟩ :: up') (join s .red t p u) :=
            Realizes.at hr
          have habove := hat.above
          rw [ptr_join] at habove
          refine sideOf_eq habove hpne (hat.not_mem ?_)
          exact (inorder_join_perm s .red t p u).mem_iff.mpr (List.mem_cons_self ..)
        have huncle : h.color (ptr sentinel v) = v.color := hrv.color_eq hr.black
        have hfix : insertFixup (fuel + 1) (ptr sentinel t) h =
            if v.color = .black then some (insertRotate s' (ptr sentinel t) p g h)
            else insertFixup fuel g (h.setColor (ptr sentinel v) .black |>.setColor p .black
              |>.setColor g .red) := by
          rw [insertFixup]
          simp only [hpt, owner]
          rw [if_neg hnot]
          simp only [hpg, owner, hside, hgv, huncle]
        rw [hfix]
        by_cases hvblack : v.color = .black
        · rw [if_pos hvblack]
          obtain rfl : c' = .black := hv.color_eq.symm.trans hvblack
          obtain ⟨c, a, x, b, rfl⟩ := exists_join s' hne
          obtain rfl : c = .red := by simpa using ht.color_eq
          rw [ptr_join]
          rcases Side.eq_or_eq_flip s' s with rfl | rfl
          · obtain ⟨m, hm⟩ := hup'.plug ((hv.join_red s.flip g hu).join_black s.flip p ht)
            refine ⟨_, _, _, m, rfl, insertRotate_outer hr, hm, inorder_plug_congr ?_⟩
            rw [join_flip, join_flip]
            exact inorder_rotate ..
          · obtain ⟨-, ha, hb⟩ := ht.of_join_red
            obtain ⟨m, hm⟩ := hup'.plug
              ((hv.join_red s'.flip g hb).join_black s'.flip x (hu.join_red s' p ha))
            refine ⟨_, _, _, m, rfl, insertRotate_inner hr, hm, inorder_plug_congr ?_⟩
            rw [join_flip, join_flip, join_flip]
            refine (inorder_rotate s' .black .red .black .red _ _ _ _ _).trans ?_
            exact inorder_join_congr (inorder_rotate ..).symm rfl
        · rw [if_neg hvblack]
          obtain rfl : c' = .red := by
            have hcolor := hv.color_eq
            cases c' with
            | red => rfl
            | black => exact absurd hcolor hvblack
          have hsib : Realizes sentinel callback h
              (plug (⟨s'.flip, .black, g, join s .red t p u⟩ :: up') v) := by
            rw [plug_cons, join_flip]
            exact hr
          have hsib := @Realizes.painted _ _ _ _ _ _ (.black) _ hsib (ne_nil_of_red hv.color_eq)
          rw [plug_cons, join_flip] at hsib
          have hparent := @Realizes.colored _ _ _ _ _ (⟨s', .black, g, v.paint .black⟩ :: up') _ _
            (.black) _ _ _ hsib
          have hgrand := @Realizes.colored _ _ _ _ _ up' _ _ (.red) _ _ _ hparent
          have hrb := (ht.join_black s p hu).join_red s' g hv.paint_black
          obtain ⟨h', t', c, m, hrun, hreal, hm, hin⟩ := ih
            (by simp only [List.length_cons] at hfuel; omega) hgrand hrb hup'
          rw [ptr_join] at hrun
          refine ⟨h', t', c, m, hrun, hreal, hm, hin.trans (inorder_plug_congr ?_)⟩
          exact inorder_join_congr (inorder_join_congr rfl rfl) (inorder_paint ..)

/-! ## The place of a new node -/

variable {compare : P → P → ℤ}

/-- The descent ends at a leaf to which the comparisons lead. -/
theorem insertDescend_spec {fuel : ℕ} (hfuel : t.inorder.length < fuel)
    (hpath : RepPath sentinel h path (ptr sentinel t))
    (ht : Rep sentinel h (owner sentinel path) t) {node : P}
    (hnode : t = .nil → node = owner sentinel path) (hlead : Leads compare x path) :
    ∃ path', plug path' .nil = plug path t ∧ Leads compare x path' ∧
      insertDescend sentinel compare x h fuel node (owner sentinel path, endSide path) =
        some (owner sentinel path', owner sentinel path', endSide path') := by
  induction fuel generalizing path t node with
  | zero => omega
  | succ fuel ih =>
    cases t with
    | nil =>
      refine ⟨path, rfl, hlead, ?_⟩
      rw [hnode rfl, insertDescend]
      exact if_pos hpath.link
    | node c l y r =>
      obtain ⟨hy, hc, hq, hl, hr, hrl, hrr⟩ := ht
      have hlen : l.inorder.length + (r.inorder.length + 1) < fuel + 1 := by
        simpa [inorder] using hfuel
      have hlink : h.child (endSide path) (owner sentinel path) = y := hpath.link
      rw [insertDescend]
      simp only [hlink]
      rw [if_neg hy]
      by_cases hlt : compare x y < 0
      · obtain ⟨path', hplug, hlead', hrun⟩ := @ih (⟨.left, c, y, r⟩ :: path) l
          (by omega) ⟨hy, hc, hq, hl, hr, hrr, hpath⟩ hrl _ (fun _ => rfl)
          (hlead.cons (by simp [hlt]))
        rw [if_pos hlt]
        exact ⟨path', hplug, hlead', hrun⟩
      · obtain ⟨path', hplug, hlead', hrun⟩ := @ih (⟨.right, c, y, l⟩ :: path) r
          (by omega) ⟨hy, hc, hq, hr, hl, hrl, hpath⟩ hrr _ (fun _ => rfl)
          (hlead.cons (by simp [hlt]))
        rw [if_neg hlt]
        exact ⟨path', hplug, hlead', hrun⟩

/-- The new node at the end of a path. -/
theorem Realizes.attached (hr : Realizes sentinel callback h (plug path .nil))
    (hx : x ≠ sentinel) (hmem : x ∉ pathNodes path) (hl : h.child .left x = sentinel)
    (hrx : h.child .right x = sentinel) (hc : h.color x = .red) :
    Realizes sentinel callback ((h.setChild (endSide path) (owner sentinel path) x).setParent x
      (owner sentinel path)) (plug path (.node .red .nil x .nil)) := by
  obtain ⟨habove, -, hnd⟩ := hr.at
  have howner := owner_ne hx hmem
  have hchild : ∀ s z, (z ≠ owner sentinel path ∨ s ≠ endSide path) →
      ((h.setChild (endSide path) (owner sentinel path) x).setParent x
        (owner sentinel path)).child s z = h.child s z := by
    intro s z hend
    rw [Heap.setParent_child, Heap.setChild_child, if_neg (by tauto)]
  refine At.realizes ⟨?_, ⟨hx, hc, ?_, ?_, ?_, trivial, trivial⟩, ?_⟩ hr.black ?_
  · refine habove.relink hnd (fun z _ s hend => hchild s z hend) (fun z hz => ?_) (fun _ _ => rfl)
      (fun hne => hchild _ _ (Or.inl fun heq => ?_)) ?_
    · rw [Heap.setParent_parent, if_neg (ne_of_mem_of_not_mem hz hmem)]
      rfl
    · rcases owner_eq_or_mem path with ⟨hnil, -⟩ | hown
      · exact hne hnil
      · exact habove.ne_sentinel _ hown heq.symm
    · rw [Heap.setParent_child, Heap.setChild_child, if_pos ⟨rfl, rfl⟩]
      rfl
  · rw [Heap.setParent_parent, if_pos rfl]
  · rw [hchild _ _ (Or.inl (Ne.symm howner)), hl]
    rfl
  · rw [hchild _ _ (Or.inl (Ne.symm howner)), hrx]
    rfl
  · exact List.nodup_cons.mpr ⟨hmem, hnd⟩
  · rw [hchild]
    · exact hr.callback
    · rcases @owner_eq_or_mem _ sentinel path with ⟨rfl, -⟩ | hown
      · exact Or.inr (by simp [endSide])
      · exact Or.inl (Ne.symm (habove.ne_sentinel _ hown))

/-- The fields of a fresh node are set. -/
theorem Realizes.fresh (hr : Realizes sentinel callback h t) (hx : x ≠ sentinel)
    (hmem : x ∉ t.inorder) : Realizes sentinel callback
      (((h.setChild .left x sentinel).setChild .right x sentinel).setColor x .red) t := by
  have hchild : ∀ z ≠ x, ∀ s, (((h.setChild .left x sentinel).setChild .right x
      sentinel).setColor x .red).child s z = h.child s z := by
    intro z hz s
    rw [Heap.setColor_child, Heap.setChild_child, if_neg fun hand => hz hand.2,
      Heap.setChild_child, if_neg fun hand => hz hand.2]
  have hcolor : ∀ z ≠ x, (((h.setChild .left x sentinel).setChild .right x
      sentinel).setColor x .red).color z = h.color z := by
    intro z hz
    rw [Heap.setColor_color, if_neg hz]
    rfl
  refine hr.congr (fun z hz => ?_) (fun s => hchild _ (Ne.symm hx) s) (hcolor _ (Ne.symm hx))
  have hne := ne_of_mem_of_not_mem hz hmem
  exact ⟨fun s => hchild z hne s, rfl, hcolor z hne⟩

/-- Insertion puts a fresh node where the comparisons lead, and the tree is a red-black tree. -/
theorem insert_spec {fuel m : ℕ} (hr : Realizes sentinel callback h t) (ht : RB t .black m)
    (hx : x ≠ sentinel) (hmem : x ∉ t.inorder) (hfuel : t.inorder.length < fuel) :
    ∃ h' t' m' path, insert sentinel compare fuel x h = some h' ∧
      Realizes sentinel callback h' t' ∧ RB t' .black m' ∧ Leads compare x path ∧
      t.inorder = before path ++ after path ∧
      t'.inorder = before path ++ x :: after path := by
  have hr₁ := hr.fresh hx hmem
  generalize hh₁ : ((h.setChild .left x sentinel).setChild .right x sentinel).setColor x .red = h₁
    at hr₁
  have hat : At sentinel h₁ [] t := Realizes.at hr₁
  obtain ⟨path, hplug, hlead, hrun⟩ := @insertDescend_spec _ _ _ _ _ _ x _ _ hfuel hat.above
    hat.here (root sentinel h₁) (by rintro rfl; exact hr₁.root) (by simp [Leads])
  have hperm := inorder_plug_perm path .nil
  rw [hplug, plug_nil] at hperm
  have hlen : path.length ≤ t.inorder.length :=
    hperm.length_eq ▸ length_le_pathNodes path
  have hnew : ∀ s, h₁.child s x = sentinel := by
    intro s
    rw [← hh₁, Heap.setColor_child, Heap.setChild_child, Heap.setChild_child]
    cases s <;> simp
  have hred : h₁.color x = .red := by rw [← hh₁, Heap.setColor_color, if_pos rfl]
  have hr₂ := Realizes.attached (x := x) (by rwa [hplug]) hx
    (fun hmem' => hmem (hperm.mem_iff.mpr hmem')) (hnew .left) (hnew .right) hred
  obtain ⟨c, n, hrb, hpath⟩ := RB.of_plug (hplug ▸ ht : RB (plug path .nil) .black m)
  cases hrb
  obtain ⟨h₃, t₃, c, m₃, hfix, hr₃, hm₃, hin⟩ := insertFixup_spec
    (Nat.lt_of_le_of_lt hlen hfuel) hr₂ (.red .nil .nil) hpath
  rw [inorder_plug] at hin
  have hne : t₃ ≠ .nil := by
    rintro rfl
    simp [inorder] at hin
  obtain ⟨m', hm'⟩ := hm₃.exists_paint_black
  refine ⟨_, _, m', path, ?_, @Realizes.painted _ _ _ _ _ [] _ _ hr₃ hne, hm', hlead, ?_,
    ?_⟩
  · have hroot : root sentinel h₃ = ptr sentinel t₃ := hr₃.root
    have hinsert : insert sentinel compare fuel x h =
        (insertFixup fuel x ((h₁.setChild (endSide path) (owner sentinel path) x).setParent x
          (owner sentinel path))).bind fun h => some (h.setColor (root sentinel h) .black) := by
      change insertDescend sentinel compare x h₁ fuel (root sentinel h₁) (sentinel, .left) = _
        at hrun
      rw [insert]
      simp only [hh₁, hrun]
      rfl
    change insertFixup fuel x _ = some h₃ at hfix
    rw [hinsert, hfix, Option.bind_some, hroot]
  · rw [← plug_nil t, ← hplug, inorder_plug]
    rfl
  · rw [plug_nil, inorder_paint, hin]
    rfl

end Njs.Rbtree
