/-
  TraceFold.Proofs.Folding.Width

  Foldings of which one shows no more than another one: nothing is on screen in it that is
  not on screen in the other, and it collapses all that the other does (`NoWider`).
  Hiding and collapsing leave no wider folding behind, showing and expanding no narrower
  one, and so do the toggles that are made of one kind of these moves only.
-/

import TraceFold.Folding.Toggle
import TraceFold.Proofs.Folding.Moves

namespace TraceFold

variable {s : Scene} {f f' f'' : Folding} {m : Move} {c : CodecId} {g : GraphId}
  {cs : List CodecId} {gs : List GraphId}

namespace Folding

/-- A folding shows nothing that another one hides, and collapses all that it does. -/
structure NoWider (f f' : Folding) : Prop where
  visible : ∀ n, f.nodeVisible n → f'.nodeVisible n
  collapsed : ∀ n, f'.nodeCollapsed n → f.nodeCollapsed n

namespace NoWider

theorem refl (f : Folding) : NoWider f f where
  visible _ := id
  collapsed _ := id

/-- Of three foldings that each show no more than the next, the first shows no more than the
    last. -/
theorem trans (h : NoWider f f') (h' : NoWider f' f'') : NoWider f f'' where
  visible n hn := h'.visible n (h.visible n hn)
  collapsed n hn := h.collapsed n (h'.collapsed n hn)

/-- A graph on screen in the narrower folding is on screen in the wider one. -/
theorem graphVisible (h : NoWider f f') (hg : f.graphVisible g) : f'.graphVisible g :=
  h.visible (.graph g) hg

/-- A graph that the wider folding collapses is collapsed in the narrower one. -/
theorem graphCollapsed (h : NoWider f f') (hg : f'.graphCollapsed g) : f.graphCollapsed g :=
  h.collapsed (.graph g) hg

theorem graphVisible_eq_false (h : NoWider f f') (hg : f'.graphVisible g = false) :
    f.graphVisible g = false :=
  Bool.eq_false_iff.2 fun hvisible => Bool.eq_false_iff.1 hg (h.graphVisible hvisible)

theorem graphCollapsed_eq_false (h : NoWider f f') (hg : f.graphCollapsed g = false) :
    f'.graphCollapsed g = false :=
  Bool.eq_false_iff.2 fun hcollapsed => Bool.eq_false_iff.1 hg (h.graphCollapsed hcollapsed)

end NoWider

/-! ## Moves -/

/-- What holds of codecs and of graphs holds of all nodes. -/
theorem noWider_of (hcv : ∀ c, f.codecVisible c → f'.codecVisible c)
    (hcc : ∀ c, f'.codecCollapsed c → f.codecCollapsed c)
    (hgv : ∀ g, f.graphVisible g → f'.graphVisible g)
    (hgc : ∀ g, f'.graphCollapsed g → f.graphCollapsed g) : NoWider f f' where
  visible n hn := by
    cases n with
    | codec c => exact hcv c hn
    | graph g => exact hgv g hn
  collapsed n hn := by
    cases n with
    | codec c => exact hcc c hn
    | graph g => exact hgc g hn

/-- Hiding codecs, or collapsing them, leaves a folding that is no wider. -/
theorem moveCodecs_noWider (hm : m = .hide ∨ m = .collapse) :
    NoWider (f.moveCodecs m cs) f := by
  rcases hm with rfl | rfl
  · exact noWider_of (fun _ h => (codecVisible_hide.1 h).1) (by simp) (by simp) (by simp)
  · exact noWider_of (by simp) (fun _ h => codecCollapsed_collapse.2 (.inl h)) (by simp) (by simp)

/-- Showing codecs, or expanding them, leaves a folding that is no narrower. -/
theorem noWider_moveCodecs (hm : m = .show ∨ m = .expand) :
    NoWider f (f.moveCodecs m cs) := by
  rcases hm with rfl | rfl
  · exact noWider_of (fun _ h => codecVisible_show.2 (.inl h)) (by simp) (by simp) (by simp)
  · exact noWider_of (by simp) (fun _ h => (codecCollapsed_expand.1 h).1) (by simp) (by simp)

theorem moveCodec_noWider (hm : m = .hide ∨ m = .collapse) : NoWider (f.moveCodec m c) f := by
  rw [moveCodec_eq]
  exact moveCodecs_noWider hm

theorem noWider_moveCodec (hm : m = .show ∨ m = .expand) : NoWider f (f.moveCodec m c) := by
  rw [moveCodec_eq]
  exact noWider_moveCodecs hm

/-- Hiding graphs, or collapsing them, leaves a folding that is no wider. -/
theorem moveGraphs_noWider (hm : m = .hide ∨ m = .collapse) :
    NoWider (f.moveGraphs m gs) f := by
  rcases hm with rfl | rfl
  · exact noWider_of (by simp) (by simp) (fun _ h => (graphVisible_hide.1 h).1) (by simp)
  · exact noWider_of (by simp) (by simp) (by simp) fun _ h => graphCollapsed_collapse.2 (.inl h)

/-- Showing graphs, or expanding them, leaves a folding that is no narrower. -/
theorem noWider_moveGraphs (hm : m = .show ∨ m = .expand) :
    NoWider f (f.moveGraphs m gs) := by
  rcases hm with rfl | rfl
  · exact noWider_of (by simp) (by simp) (fun _ h => graphVisible_show.2 (.inl h)) (by simp)
  · exact noWider_of (by simp) (by simp) (by simp) fun _ h => (graphCollapsed_expand.1 h).1

theorem moveGraph_noWider (hm : m = .hide ∨ m = .collapse) : NoWider (f.moveGraph m g) f := by
  rw [moveGraph_eq]
  exact moveGraphs_noWider hm

theorem noWider_moveGraph (hm : m = .show ∨ m = .expand) : NoWider f (f.moveGraph m g) := by
  rw [moveGraph_eq]
  exact noWider_moveGraphs hm

end Folding

/-! ## Toggles -/

namespace Scene

open Folding

/-- Collapsing what is below a codec hides and collapses, and does nothing else. -/
theorem collapseBelow_noWider : NoWider (s.collapseBelow f c).1 f :=
  ((moveGraphs_noWider (.inl rfl)).trans (moveCodecs_noWider (.inl rfl))).trans
    (moveCodec_noWider (.inr rfl))

/-- Expanding what is below a codec shows and expands, and does nothing else. -/
theorem noWider_expandBelow : NoWider f (s.expandBelow f c).1 :=
  ((noWider_moveCodec (.inr rfl)).trans (noWider_moveGraphs (.inl rfl))).trans
    (noWider_moveCodecs (.inl rfl))

/-- Hiding a graph takes codecs and graphs off the screen, and brings none on it. -/
theorem hideGraph_noWider : NoWider (s.hideGraph f g c).1 f := by
  have hbelow : NoWider (if f.codecCollapsed c then f else (s.collapseBelow f c).1) f := by
    split
    · exact .refl f
    · exact collapseBelow_noWider
  exact ((moveCodec_noWider (.inl rfl)).trans (moveGraph_noWider (.inr rfl))).trans hbelow

/-- Restoring a graph brings codecs and graphs on screen, whichever way it goes. -/
theorem noWider_restoreGraph : NoWider f (s.restoreGraph f g c).1 := by
  have hshown : NoWider f ((f.moveGraph .expand g).moveGraph .show g) :=
    (noWider_moveGraph (.inr rfl)).trans (noWider_moveGraph (.inl rfl))
  simp only [restoreGraph]
  split
  · exact (hshown.trans noWider_expandBelow).trans (noWider_moveCodec (.inl rfl))
  · exact (hshown.trans (noWider_moveCodecs (.inl rfl))).trans (noWider_moveCodec (.inl rfl))

end Scene

end TraceFold
