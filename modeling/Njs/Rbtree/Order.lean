import Njs.Lib.ColorTree
import Mathlib.Data.Int.Order.Basic

/-!
# Comparisons and search paths

A comparison is a total preorder; nodes that compare equal may stand in any order. A path that
was found by comparing with a node separates the nodes that are below it from those above it.
-/

namespace Njs.Rbtree

open Njs.Lib Njs.Lib.ColorTree

variable {P : Type} {compare : P → P → ℤ}

/-- The comparison of the callback is a total preorder. -/
structure TotalPreorder (compare : P → P → ℤ) : Prop where
  lt_iff : ∀ a b, compare a b < 0 ↔ 0 < compare b a
  trans : ∀ a b c, compare a b ≤ 0 → compare b c ≤ 0 → compare a c ≤ 0

namespace TotalPreorder

variable (ho : TotalPreorder compare)

include ho

theorem le_iff (a b : P) : compare a b ≤ 0 ↔ 0 ≤ compare b a := by
  have := ho.lt_iff b a
  omega

theorem refl (a : P) : compare a a ≤ 0 := by
  have := ho.lt_iff a a
  omega

theorem lt_of_lt_of_le {a b c : P} (hab : compare a b < 0) (hbc : compare b c ≤ 0) :
    compare a c < 0 := by
  by_contra hnot
  have hca : compare c a ≤ 0 := (ho.le_iff c a).mpr (by omega)
  have hba := ho.trans b c a hbc hca
  have := ho.lt_iff a b
  omega

theorem lt_of_le_of_lt {a b c : P} (hab : compare a b ≤ 0) (hbc : compare b c < 0) :
    compare a c < 0 := by
  by_contra hnot
  have hca : compare c a ≤ 0 := (ho.le_iff c a).mpr (by omega)
  have hcb := ho.trans c a b hca hab
  have := ho.lt_iff b c
  omega

end TotalPreorder

/-- The nodes of a tree are in order. -/
def Sorted (compare : P → P → ℤ) (nodes : List P) : Prop :=
  nodes.Pairwise fun a b => compare a b ≤ 0

/-- A path goes left where the node is less than those on the path, and right elsewhere. -/
def Leads (compare : P → P → ℤ) (x : P) (path : List (Crumb P)) : Prop :=
  ∀ crumb ∈ path, compare x crumb.x < 0 ↔ crumb.side = .left

theorem Leads.cons {x : P} {s : Side} {c : Color} {y : P} {u : ColorTree P}
    {up : List (Crumb P)} (hup : Leads compare x up) (hs : compare x y < 0 ↔ s = .left) :
    Leads compare x (⟨s, c, y, u⟩ :: up) := by
  intro crumb hmem
  rcases List.mem_cons.mp hmem with rfl | hmem
  · exact hs
  · exact hup crumb hmem

theorem Sorted.sublist {nodes nodes' : List P} (h : Sorted compare nodes)
    (hsub : nodes'.Sublist nodes) : Sorted compare nodes' := List.Pairwise.sublist hsub h

/-- What is before the place to which the comparisons lead is not above the node. -/
theorem Leads.before_le (ho : TotalPreorder compare) {x : P} {path : List (Crumb P)}
    (hlead : Leads compare x path) (hsorted : Sorted compare (before path)) :
    ∀ z ∈ before path, compare z x ≤ 0 := by
  induction path with
  | nil => simp [before]
  | cons crumb up ih =>
    obtain ⟨s, c, y, u⟩ := crumb
    have hup : Leads compare x up := fun crumb hmem => hlead crumb (List.mem_cons_of_mem _ hmem)
    cases s with
    | left => exact ih hup hsorted
    | right =>
      rw [before, Sorted, List.pairwise_append] at hsorted
      have hyx : compare y x ≤ 0 := by
        have hnot : ¬compare x y < 0 := fun hlt =>
          absurd ((hlead ⟨.right, c, y, u⟩ (List.mem_cons_self ..)).mp hlt) (by simp)
        exact (ho.le_iff y x).mpr (by omega)
      intro z hz
      rw [before, List.mem_append, List.mem_append, List.mem_singleton] at hz
      rcases hz with hz | hz | rfl
      · exact ih hup hsorted.1 z hz
      · have hzy := (List.pairwise_append.mp hsorted.2.1).2.2 z hz y (List.mem_singleton_self y)
        exact ho.trans z y x hzy hyx
      · exact hyx

/-- What is after it is above the node. -/
theorem Leads.lt_after (ho : TotalPreorder compare) {x : P} {path : List (Crumb P)}
    (hlead : Leads compare x path) (hsorted : Sorted compare (after path)) :
    ∀ z ∈ after path, compare x z < 0 := by
  induction path with
  | nil => simp [after]
  | cons crumb up ih =>
    obtain ⟨s, c, y, u⟩ := crumb
    have hup : Leads compare x up := fun crumb hmem => hlead crumb (List.mem_cons_of_mem _ hmem)
    cases s with
    | right => exact ih hup hsorted
    | left =>
      rw [after, Sorted, List.cons_append, List.pairwise_cons, List.pairwise_append] at hsorted
      have hxy : compare x y < 0 := (hlead ⟨.left, c, y, u⟩ (List.mem_cons_self ..)).mpr rfl
      intro z hz
      rw [after, List.cons_append, List.mem_cons, List.mem_append] at hz
      rcases hz with rfl | hz | hz
      · exact hxy
      · exact ho.lt_of_lt_of_le hxy (hsorted.1 z (List.mem_append_left _ hz))
      · exact ih hup hsorted.2.2.1 z hz

/-- A node may be put where the comparisons lead. -/
theorem Leads.sorted_insert (ho : TotalPreorder compare) {x : P} {path : List (Crumb P)}
    (hlead : Leads compare x path) (hsorted : Sorted compare (before path ++ after path)) :
    Sorted compare (before path ++ x :: after path) := by
  obtain ⟨hb, ha, hba⟩ := List.pairwise_append.mp hsorted
  have hle := hlead.before_le ho hb
  have hlt := hlead.lt_after ho ha
  refine List.pairwise_append.mpr ⟨hb, List.pairwise_cons.mpr ⟨?_, ha⟩, ?_⟩
  · exact fun z hz => Int.le_of_lt (hlt z hz)
  · intro z hz w hw
    rcases List.mem_cons.mp hw with rfl | hw
    · exact hle z hz
    · exact hba z hz w hw

end Njs.Rbtree
