import Njs.Rbtree.Heap

/-!
# Trees in memory

A memory realizes a tree if the fields of its nodes are what the tree says, and the sentinel's
left child is the root. At a place in the tree this splits into what the path says and what the
subtree says, so that an operation there changes the one or the other.
-/

namespace Njs.Rbtree

open Njs.Lib Njs.Lib.ColorTree

variable {P : Type} (sentinel : P)

/-- The pointer to a tree. -/
def ptr : ColorTree P → P
  | .nil => sentinel
  | .node _ _ x _ => x

/-- The parent of the subtree at the end of a path. -/
def owner : List (Crumb P) → P
  | [] => sentinel
  | crumb :: _ => crumb.x

/-- The side of the parent at which the path ends. -/
def endSide : List (Crumb P) → Side
  | [] => .left
  | crumb :: _ => crumb.side

/-- The nodes of a path and of its siblings. -/
def pathNodes : List (Crumb P) → List P
  | [] => []
  | ⟨_, _, x, u⟩ :: up => x :: (u.inorder ++ pathNodes up)

theorem pathNodes_append (path path' : List (Crumb P)) :
    pathNodes (path ++ path') = pathNodes path ++ pathNodes path' := by
  induction path with
  | nil => rfl
  | cons crumb path ih =>
    obtain ⟨s, c, x, u⟩ := crumb
    simp [pathNodes, ih]

/-- The fields of the nodes of a subtree below `q`. -/
def Rep (h : Heap P) : P → ColorTree P → Prop
  | _, .nil => True
  | q, .node c l x r => x ≠ sentinel ∧ h.color x = c ∧ h.parent x = q ∧
      h.child .left x = ptr sentinel l ∧ h.child .right x = ptr sentinel r ∧
      Rep h x l ∧ Rep h x r

/-- The fields of the nodes of a path, at whose end the pointer `p` is. -/
def RepPath (h : Heap P) : List (Crumb P) → P → Prop
  | [], p => h.child .left sentinel = p
  | ⟨s, c, x, u⟩ :: up, p => x ≠ sentinel ∧ h.color x = c ∧ h.parent x = owner sentinel up ∧
      h.child s x = p ∧ h.child s.flip x = ptr sentinel u ∧ Rep sentinel h x u ∧ RepPath h up x

/-- The memory holds a tree. -/
structure Realizes (callback : P) (h : Heap P) (t : ColorTree P) : Prop where
  root : h.child .left sentinel = ptr sentinel t
  links : Rep sentinel h sentinel t
  nodup : t.inorder.Nodup
  black : h.color sentinel = .black
  callback : h.child .right sentinel = callback

variable {sentinel} {h h' : Heap P}

theorem rep_join {q x : P} {s : Side} {c : Color} {t u : ColorTree P} :
    Rep sentinel h q (join s c t x u) ↔ x ≠ sentinel ∧ h.color x = c ∧ h.parent x = q ∧
      h.child s x = ptr sentinel t ∧ h.child s.flip x = ptr sentinel u ∧
      Rep sentinel h x t ∧ Rep sentinel h x u := by
  cases s with
  | left => rfl
  | right =>
    change (_ ∧ _ ∧ _ ∧ _ ∧ _ ∧ _ ∧ _) ↔ _
    constructor <;> exact fun ⟨h₁, h₂, h₃, h₄, h₅, h₆, h₇⟩ => ⟨h₁, h₂, h₃, h₅, h₄, h₇, h₆⟩

theorem ptr_join {x : P} {s : Side} {c : Color} {t u : ColorTree P} :
    ptr sentinel (join s c t x u) = x := by
  cases s <;> rfl

theorem ptr_mem {t : ColorTree P} (ht : t ≠ .nil) : ptr sentinel t ∈ t.inorder := by
  cases t with
  | nil => exact absurd rfl ht
  | node c l x r => simp [ptr, inorder]

theorem ptr_eq_or_mem (t : ColorTree P) :
    t = .nil ∧ ptr sentinel t = sentinel ∨ ptr sentinel t ∈ t.inorder := by
  cases t with
  | nil => exact Or.inl ⟨rfl, rfl⟩
  | node c l x r => exact Or.inr (ptr_mem (by simp))

theorem owner_eq_or_mem (path : List (Crumb P)) :
    path = [] ∧ owner sentinel path = sentinel ∨ owner sentinel path ∈ pathNodes path := by
  cases path with
  | nil => exact Or.inl ⟨rfl, rfl⟩
  | cons crumb up => exact Or.inr (List.mem_cons_self ..)

theorem ptr_ne {t : ColorTree P} {z : P} (hz : z ≠ sentinel) (hmem : z ∉ t.inorder) :
    ptr sentinel t ≠ z := by
  rintro rfl
  rcases ptr_eq_or_mem t with ⟨-, hnil⟩ | ht
  · exact hz hnil
  · exact hmem ht

theorem owner_ne {path : List (Crumb P)} {z : P} (hz : z ≠ sentinel) (hmem : z ∉ pathNodes path) :
    owner sentinel path ≠ z := by
  rintro rfl
  rcases owner_eq_or_mem path with ⟨-, hnil⟩ | hpath
  · exact hz hnil
  · exact hmem hpath

theorem Rep.ne_sentinel {q : P} {t : ColorTree P} (ht : Rep sentinel h q t) :
    ∀ z ∈ t.inorder, z ≠ sentinel := by
  induction t generalizing q with
  | nil => simp [inorder]
  | node c l x r ihl ihr =>
    obtain ⟨hx, -, -, -, -, hl, hr⟩ := ht
    intro z hz
    rw [inorder, List.mem_append, List.mem_cons] at hz
    rcases hz with hz | rfl | hz
    · exact ihl hl z hz
    · exact hx
    · exact ihr hr z hz

theorem RepPath.ne_sentinel {path : List (Crumb P)} {p : P} (hp : RepPath sentinel h path p) :
    ∀ z ∈ pathNodes path, z ≠ sentinel := by
  induction path generalizing p with
  | nil => simp [pathNodes]
  | cons crumb up ih =>
    obtain ⟨s, c, x, u⟩ := crumb
    obtain ⟨hx, -, -, -, -, hu, hup⟩ := hp
    intro z hz
    rw [pathNodes, List.mem_cons, List.mem_append] at hz
    rcases hz with rfl | hz | hz
    · exact hx
    · exact hu.ne_sentinel z hz
    · exact ih hup z hz

theorem Rep.ptr_eq_sentinel {q : P} {t : ColorTree P} (ht : Rep sentinel h q t) :
    ptr sentinel t = sentinel ↔ t = .nil := by
  cases t with
  | nil => simp [ptr]
  | node c l x r =>
    obtain ⟨hx, -⟩ := ht
    simp [ptr, hx]

theorem Rep.color_eq {q : P} {t : ColorTree P} (ht : Rep sentinel h q t)
    (hblack : h.color sentinel = .black) : h.color (ptr sentinel t) = t.color := by
  cases t with
  | nil => exact hblack
  | node c l x r => exact ht.2.1

/-- The link at which the path ends. -/
theorem RepPath.link {path : List (Crumb P)} {p : P} (hp : RepPath sentinel h path p) :
    h.child (endSide path) (owner sentinel path) = p := by
  cases path with
  | nil => exact hp
  | cons crumb up => exact hp.2.2.2.1

/-- The path and the subtree at a place. -/
theorem rep_plug {path : List (Crumb P)} {t : ColorTree P} :
    (h.child .left sentinel = ptr sentinel (plug path t) ∧ Rep sentinel h sentinel (plug path t)) ↔
      RepPath sentinel h path (ptr sentinel t) ∧ Rep sentinel h (owner sentinel path) t := by
  induction path generalizing t with
  | nil => rfl
  | cons crumb up ih =>
    obtain ⟨s, c, x, u⟩ := crumb
    rw [plug_cons, ih, rep_join, ptr_join]
    constructor
    · rintro ⟨hup, hx, hc, hq, ht, hu, hrt, hru⟩
      exact ⟨⟨hx, hc, hq, ht, hu, hru, hup⟩, hrt⟩
    · rintro ⟨⟨hx, hc, hq, ht, hu, hru, hup⟩, hrt⟩
      exact ⟨hup, hx, hc, hq, ht, hu, hrt, hru⟩

theorem inorder_plug_perm (path : List (Crumb P)) (t : ColorTree P) :
    (plug path t).inorder.Perm (t.inorder ++ pathNodes path) := by
  induction path generalizing t with
  | nil => simp [pathNodes]
  | cons crumb up ih =>
    obtain ⟨s, c, x, u⟩ := crumb
    refine (ih _).trans (((inorder_join_perm s c t x u).append_right _).trans ?_)
    rw [pathNodes, List.cons_append, List.append_assoc]
    exact List.perm_middle.symm

theorem length_le_pathNodes (path : List (Crumb P)) : path.length ≤ (pathNodes path).length := by
  induction path with
  | nil => exact Nat.le_refl 0
  | cons crumb up ih =>
    obtain ⟨s, c, y, u⟩ := crumb
    simp only [pathNodes, List.length_cons, List.length_append]
    omega

theorem ptr_plug_mem {path : List (Crumb P)} {t : ColorTree P} (hp : path ≠ []) :
    ptr sentinel (plug path t) ∈ pathNodes path := by
  induction path generalizing t with
  | nil => exact absurd rfl hp
  | cons crumb up ih =>
    obtain ⟨s, c, x, u⟩ := crumb
    rw [plug_cons, pathNodes, List.mem_cons, List.mem_append]
    cases up with
    | nil => exact Or.inl ptr_join
    | cons crumb' up => exact Or.inr (Or.inr (ih (by simp)))

/-! ## What is left alone -/

/-- The fields of a node are the same. -/
structure SameAt (h h' : Heap P) (z : P) : Prop where
  child : ∀ s, h'.child s z = h.child s z
  parent : h'.parent z = h.parent z
  color : h'.color z = h.color z

theorem Rep.congr {q : P} {t : ColorTree P} (ht : Rep sentinel h q t)
    (hsame : ∀ z ∈ t.inorder, SameAt h h' z) : Rep sentinel h' q t := by
  induction t generalizing q with
  | nil => trivial
  | node c l x r ihl ihr =>
    obtain ⟨hx, hc, hq, hl, hr, hrl, hrr⟩ := ht
    have hself := hsame x (by simp [inorder])
    exact ⟨hx, hself.color.trans hc, hself.parent.trans hq, (hself.child _).trans hl,
      (hself.child _).trans hr, ihl hrl fun z hz => hsame z (by simp [inorder, hz]),
      ihr hrr fun z hz => hsame z (by simp [inorder, hz])⟩

/-- The subtree gets another parent. -/
theorem Rep.reparent {q q' : P} {t : ColorTree P} (ht : Rep sentinel h q t)
    (hnd : t.inorder.Nodup) (hchild : ∀ z ∈ t.inorder, ∀ s, h'.child s z = h.child s z)
    (hcolor : ∀ z ∈ t.inorder, h'.color z = h.color z)
    (hparent : ∀ z ∈ t.inorder, z ≠ ptr sentinel t → h'.parent z = h.parent z)
    (hroot : h'.parent (ptr sentinel t) = q') : Rep sentinel h' q' t := by
  cases t with
  | nil => trivial
  | node c l x r =>
    obtain ⟨hx, hc, hq, hl, hr, hrl, hrr⟩ := ht
    rw [inorder, List.nodup_append, List.nodup_cons] at hnd
    have hmem : x ∈ (node c l x r).inorder := by simp [inorder]
    have hsame : ∀ z ∈ (node c l x r).inorder, z ≠ x → SameAt h h' z := fun z hz hne =>
      ⟨hchild z hz, hparent z hz hne, hcolor z hz⟩
    refine ⟨hx, (hcolor x hmem).trans hc, hroot, (hchild x hmem _).trans hl,
      (hchild x hmem _).trans hr, hrl.congr fun z hz => hsame z (by simp [inorder, hz]) ?_,
      hrr.congr fun z hz => hsame z (by simp [inorder, hz]) ?_⟩
    · exact fun heq => hnd.2.2 z hz x (List.mem_cons_self ..) heq
    · exact fun heq => hnd.2.1.1 (heq ▸ hz)

theorem RepPath.congr {path : List (Crumb P)} {p : P} (hp : RepPath sentinel h path p)
    (hsame : ∀ z ∈ pathNodes path, SameAt h h' z)
    (hroot : h'.child .left sentinel = h.child .left sentinel) : RepPath sentinel h' path p := by
  induction path generalizing p with
  | nil => exact hroot.trans hp
  | cons crumb up ih =>
    obtain ⟨s, c, x, u⟩ := crumb
    obtain ⟨hx, hc, hq, ht, hu, hru, hup⟩ := hp
    have hself := hsame x (List.mem_cons_self ..)
    exact ⟨hx, hself.color.trans hc, hself.parent.trans hq, (hself.child _).trans ht,
      (hself.child _).trans hu, hru.congr fun z hz => hsame z (by simp [pathNodes, hz]),
      ih hup fun z hz => hsame z (by simp [pathNodes, hz])⟩

/-- Only the link at the end of the path changes. -/
theorem RepPath.relink {path : List (Crumb P)} {p p' : P} (hp : RepPath sentinel h path p)
    (hnd : (pathNodes path).Nodup)
    (hchild : ∀ z ∈ pathNodes path, ∀ s, (z ≠ owner sentinel path ∨ s ≠ endSide path) →
      h'.child s z = h.child s z)
    (hparent : ∀ z ∈ pathNodes path, h'.parent z = h.parent z)
    (hcolor : ∀ z ∈ pathNodes path, h'.color z = h.color z)
    (hroot : path ≠ [] → h'.child .left sentinel = h.child .left sentinel)
    (hlink : h'.child (endSide path) (owner sentinel path) = p') :
    RepPath sentinel h' path p' := by
  cases path with
  | nil => exact hlink
  | cons crumb up =>
    obtain ⟨s, c, x, u⟩ := crumb
    obtain ⟨hx, hc, hq, ht, hu, hru, hup⟩ := hp
    rw [pathNodes, List.nodup_cons, List.mem_append] at hnd
    have hmem : x ∈ pathNodes (⟨s, c, x, u⟩ :: up) := List.mem_cons_self ..
    have hsame : ∀ z ∈ pathNodes (⟨s, c, x, u⟩ :: up), z ≠ x → SameAt h h' z := fun z hz hne =>
      ⟨fun s => hchild z hz s (Or.inl hne), hparent z hz, hcolor z hz⟩
    refine ⟨hx, (hcolor x hmem).trans hc, (hparent x hmem).trans hq, hlink,
      (hchild x hmem _ (Or.inr (Side.flip_ne s))).trans hu,
      hru.congr fun z hz => hsame z (by simp [pathNodes, hz]) ?_,
      hup.congr (fun z hz => hsame z (by simp [pathNodes, hz]) ?_) (hroot (by simp))⟩
    · exact fun heq => hnd.1 (Or.inl (heq ▸ hz))
    · exact fun heq => hnd.1 (Or.inr (heq ▸ hz))

variable {callback : P} {path : List (Crumb P)} {t : ColorTree P}

theorem Realizes.congr (hr : Realizes sentinel callback h t)
    (hsame : ∀ z ∈ t.inorder, SameAt h h' z)
    (hchild : ∀ s, h'.child s sentinel = h.child s sentinel)
    (hcolor : h'.color sentinel = h.color sentinel) : Realizes sentinel callback h' t :=
  ⟨(hchild _).trans hr.root, hr.links.congr hsame, hr.nodup, hcolor.trans hr.black,
    (hchild _).trans hr.callback⟩

/-! ## Places -/

/-- What the memory says about a place in the tree. -/
structure At (sentinel : P) (h : Heap P) (path : List (Crumb P)) (t : ColorTree P) : Prop where
  above : RepPath sentinel h path (ptr sentinel t)
  here : Rep sentinel h (owner sentinel path) t
  nodup : (t.inorder ++ pathNodes path).Nodup

theorem Realizes.at (hr : Realizes sentinel callback h (plug path t)) : At sentinel h path t :=
  have hboth := rep_plug.mp ⟨hr.root, hr.links⟩
  ⟨hboth.1, hboth.2, (inorder_plug_perm path t).nodup_iff.mp hr.nodup⟩

theorem At.realizes (ht : At sentinel h path t) (hblack : h.color sentinel = .black)
    (hcallback : h.child .right sentinel = callback) :
    Realizes sentinel callback h (plug path t) :=
  have hboth := rep_plug.mpr ⟨ht.above, ht.here⟩
  ⟨hboth.1, hboth.2, (inorder_plug_perm path t).nodup_iff.mpr ht.nodup, hblack, hcallback⟩

theorem At.not_mem (ht : At sentinel h path t) {z : P} (hz : z ∈ t.inorder) :
    z ∉ pathNodes path :=
  fun hz' => (List.nodup_append.mp ht.nodup).2.2 z hz z hz' rfl

/-- The fields of the node at a place. -/
theorem Realizes.node {s : Side} {c : Color} {u : ColorTree P} {x : P}
    (hr : Realizes sentinel callback h (plug path (join s c t x u))) :
    x ≠ sentinel ∧ h.color x = c ∧ h.parent x = owner sentinel path ∧
      h.child s x = ptr sentinel t ∧ h.child s.flip x = ptr sentinel u :=
  have ⟨hx, hc, hq, ht, hu, _⟩ := rep_join.mp hr.at.here
  ⟨hx, hc, hq, ht, hu⟩

theorem Realizes.parent_eq (hr : Realizes sentinel callback h (plug path t)) (ht : t ≠ .nil) :
    h.parent (ptr sentinel t) = owner sentinel path := by
  obtain ⟨c, u, x, v, rfl⟩ := exists_join .left ht
  rw [ptr_join]
  exact hr.node.2.2.1

/-- The color of the subtree at a place. -/
theorem Realizes.color_eq (hr : Realizes sentinel callback h (plug path t)) :
    h.color (ptr sentinel t) = t.color := hr.at.here.color_eq hr.black

end Njs.Rbtree
