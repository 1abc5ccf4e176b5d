/-
  TraceFold.Proofs.Folding.Standard

  What toggling all standard graphs does.  The pass comes to every graph once, in
  ascending order, and toggles those that are not yet as wanted (`Settled`).

    * Collapsing needs one pass: it only hides and collapses, so a graph that is settled
      stays so (`toggleStandard_collapses`).
    * Expanding may need several: restoring a graph can bring one back on screen, still
      collapsed, that the pass has already been to.  Only graphs with a codec below the
      first codec of a later graph are left in this way, and each pass that toggles
      anything leaves fewer graphs collapsed (`toggleStandard_expands`).
-/

import TraceFold.Proofs.Folding.GraphEffect
import TraceFold.Proofs.Folding.Width
import TraceFold.Proofs.Lists

namespace TraceFold.Scene

open Folding

variable {s : Scene} {f f' : Folding} {collapse : Bool} {g h : GraphId} {first : CodecId}
  {gs : List GraphId}

/-! ## One graph -/

/-- A graph of the standard kind that lists a codec. -/
def Standard (s : Scene) (g : GraphId) : Prop :=
  ∃ graph, s.pipeline.graph? g = some graph ∧ graph.isStandard ∧ graph.codecs ≠ []

/-- A graph is not to be toggled: it is hidden or as wanted, or not one to be toggled at
    all. -/
def Settled (s : Scene) (collapse : Bool) (f : Folding) (g : GraphId) : Prop :=
  s.Standard g → f.graphVisible g → f.graphCollapsed g = collapse

theorem standard_iff : s.Standard g ↔ ∃ first, s.standardFirst? g = some first := by
  unfold Standard standardFirst?
  cases hgraph : s.pipeline.graph? g with
  | none => simp
  | some graph =>
    cases hcodecs : graph.codecs <;> cases hkind : graph.isStandard <;>
      simp [Graph.first?, hcodecs, hkind]

theorem Standard.mem_graphIds (hg : s.Standard g) : g ∈ s.pipeline.graphIds := by
  obtain ⟨graph, hgraph, -⟩ := hg
  have hlt : g.index < s.pipeline.graphs.size := (Array.getElem?_eq_some_iff.1 hgraph).1
  exact List.mem_map.2 ⟨g.index, List.mem_range.2 hlt, rfl⟩

theorem pairwise_graphIds (p : Pipeline) : p.graphIds.Pairwise (·.index < ·.index) :=
  List.pairwise_map.2 List.pairwise_lt_range

theorem settleStandard?_eq_some : s.settleStandard? collapse f g = some f' ↔
    f.graphVisible g ∧ f.graphCollapsed g ≠ collapse ∧
      ∃ first, s.standardFirst? g = some first ∧ (s.toggleHidden f g first).1 = f' := by
  unfold settleStandard?
  split
  · rename_i hdue
    simp only [Bool.and_eq_true, bne_iff_ne] at hdue
    rw [Option.map_eq_some_iff]
    exact ⟨fun hfirst => ⟨hdue.1, hdue.2, hfirst⟩, fun hall => hall.2.2⟩
  · rename_i hnot
    refine ⟨fun hnone => (Option.some_ne_none f' hnone.symm).elim, fun ⟨hvisible, hne, _⟩ => ?_⟩
    exact absurd (by simp [hvisible, hne]) hnot

theorem settleStandard?_eq_none :
    s.settleStandard? collapse f g = none ↔ s.Settled collapse f g := by
  rw [Option.eq_none_iff_forall_ne_some]
  refine ⟨fun hnone hstandard hvisible => ?_, fun hsettled f' hsome => ?_⟩
  · obtain ⟨first, hfirst⟩ := standard_iff.1 hstandard
    by_contra hne
    exact hnone _ (settleStandard?_eq_some.2 ⟨hvisible, hne, first, hfirst, rfl⟩)
  · obtain ⟨hvisible, hne, first, hfirst, -⟩ := settleStandard?_eq_some.1 hsome
    exact hne (hsettled (standard_iff.2 ⟨first, hfirst⟩) hvisible)

/-- A graph that is to be collapsed is hidden. -/
theorem settleStandard?_true (hstep : s.settleStandard? true f g = some f') :
    s.Standard g ∧ f.graphVisible g ∧ f.graphCollapsed g = false ∧
      ∃ first, f' = (s.hideGraph f g first).1 := by
  obtain ⟨hvisible, hne, first, hfirst, rfl⟩ := settleStandard?_eq_some.1 hstep
  have hopen : f.graphCollapsed g = false := Bool.eq_false_iff.2 hne
  refine ⟨standard_iff.2 ⟨first, hfirst⟩, hvisible, hopen, first, ?_⟩
  simp [toggleHidden, hopen]

/-- A graph that is to be expanded is restored. -/
theorem settleStandard?_false (hstep : s.settleStandard? false f g = some f') :
    f.graphVisible g ∧ f.graphCollapsed g ∧
      ∃ first, s.standardFirst? g = some first ∧ f' = (s.restoreGraph f g first).1 := by
  obtain ⟨hvisible, hne, first, hfirst, rfl⟩ := settleStandard?_eq_some.1 hstep
  have hcollapsed : f.graphCollapsed g = true := Bool.ne_false_iff.1 hne
  refine ⟨hvisible, hcollapsed, first, hfirst, ?_⟩
  simp [toggleHidden, hcollapsed]

/-! ## A pass -/

theorem settleAll_cons_of_none (hstep : s.settleStandard? collapse f g = none) :
    s.settleAll collapse f (g :: gs) = s.settleAll collapse f gs := by
  rw [settleAll, hstep]

theorem settleAll_cons_of_some (hstep : s.settleStandard? collapse f g = some f') :
    s.settleAll collapse f (g :: gs)
      = ((s.settleAll collapse f' gs).1, g :: (s.settleAll collapse f' gs).2) := by
  rw [settleAll, hstep]

/-- A pass over settled graphs does nothing. -/
theorem settleAll_of_settled (hall : ∀ g ∈ gs, s.Settled collapse f g) :
    s.settleAll collapse f gs = (f, []) := by
  induction gs with
  | nil => rfl
  | cons g gs ih =>
    rw [settleAll_cons_of_none (settleStandard?_eq_none.2 (hall g List.mem_cons_self))]
    exact ih fun h hh => hall h (List.mem_cons_of_mem g hh)

/-- A pass that toggles nothing goes over settled graphs. -/
theorem settled_of_settleAll_eq_nil (hnil : (s.settleAll collapse f gs).2 = []) :
    ∀ g ∈ gs, s.Settled collapse f g := by
  induction gs with
  | nil => exact fun g hg => absurd hg List.not_mem_nil
  | cons g gs ih =>
    cases hstep : s.settleStandard? collapse f g with
    | none =>
      rw [settleAll_cons_of_none hstep] at hnil
      exact List.forall_mem_cons.2 ⟨settleStandard?_eq_none.1 hstep, ih hnil⟩
    | some f₁ =>
      rw [settleAll_cons_of_some hstep] at hnil
      exact absurd hnil (List.cons_ne_nil _ _)

theorem toggleStandard_eq_self_iff :
    s.toggleStandard collapse f = (f, []) ↔ ∀ g, s.Settled collapse f g := by
  refine ⟨fun hself g hstandard => ?_, fun hall => settleAll_of_settled fun g _ => hall g⟩
  exact settled_of_settleAll_eq_nil (congrArg Prod.snd hself) g hstandard.mem_graphIds hstandard

/-- The graphs that are toggled come in the order of the pass. -/
theorem settleAll_sublist (s : Scene) (collapse : Bool) (f : Folding) (gs : List GraphId) :
    (s.settleAll collapse f gs).2.Sublist gs := by
  induction gs generalizing f with
  | nil => exact List.Sublist.refl []
  | cons g gs ih =>
    cases hstep : s.settleStandard? collapse f g with
    | none =>
      rw [settleAll_cons_of_none hstep]
      exact (ih f).cons g
    | some f₁ =>
      rw [settleAll_cons_of_some hstep]
      exact (ih f₁).cons_cons g

/-! ## Collapsing all -/

theorem graphCollapsed_hideGraph (hg : f.graphVisible g) :
    (s.hideGraph f g first).1.graphCollapsed g := by
  have hknown : g.index < f.graphs.size := by
    rw [← isSome_graph?]
    unfold graphVisible at hg
    cases hfold : f.graph? g with
    | none => simp [hfold] at hg
    | some fold => rfl
  exact (graphCollapsed_hideGraph_iff hknown).2 (Or.inr rfl)

/-- A graph that is settled for collapsing stays so while less is shown. -/
theorem Settled.of_noWider (hg : s.Settled true f g) (hle : NoWider f' f) :
    s.Settled true f' g := fun hstandard hvisible =>
  hle.graphCollapsed (hg hstandard (hle.graphVisible hvisible))

theorem settleAll_true_noWider : NoWider (s.settleAll true f gs).1 f := by
  induction gs generalizing f with
  | nil => exact .refl f
  | cons g gs ih =>
    cases hstep : s.settleStandard? true f g with
    | none =>
      rw [settleAll_cons_of_none hstep]
      exact ih
    | some f₁ =>
      rw [settleAll_cons_of_some hstep]
      obtain ⟨-, -, -, first, rfl⟩ := settleStandard?_true hstep
      exact ih.trans hideGraph_noWider

/-- After a pass that collapses, every graph that it went over is settled. -/
theorem settled_settleAll_true : ∀ g ∈ gs, s.Settled true (s.settleAll true f gs).1 g := by
  induction gs generalizing f with
  | nil => exact fun g hg => absurd hg List.not_mem_nil
  | cons g gs ih =>
    cases hstep : s.settleStandard? true f g with
    | none =>
      rw [settleAll_cons_of_none hstep]
      -- it is settled now, and the rest of the pass only hides and collapses
      have hg : s.Settled true f g := settleStandard?_eq_none.1 hstep
      exact List.forall_mem_cons.2 ⟨hg.of_noWider settleAll_true_noWider, ih⟩
    | some f₁ =>
      rw [settleAll_cons_of_some hstep]
      obtain ⟨-, hvisible, -, first, rfl⟩ := settleStandard?_true hstep
      have hg : s.Settled true (s.hideGraph f g first).1 g :=
        fun _ _ => graphCollapsed_hideGraph hvisible
      exact List.forall_mem_cons.2 ⟨hg.of_noWider settleAll_true_noWider, ih⟩

/-- What is toggled by a pass that collapses was not collapsed before, and is after it. -/
theorem of_mem_settleAll_true (hg : g ∈ (s.settleAll true f gs).2) :
    s.Standard g ∧ f.graphVisible g ∧ f.graphCollapsed g = false ∧
      (s.settleAll true f gs).1.graphCollapsed g := by
  induction gs generalizing f with
  | nil => exact absurd hg List.not_mem_nil
  | cons g' gs ih =>
    cases hstep : s.settleStandard? true f g' with
    | none =>
      rw [settleAll_cons_of_none hstep] at hg ⊢
      exact ih hg
    | some f₁ =>
      rw [settleAll_cons_of_some hstep] at hg ⊢
      obtain ⟨hstandard, hvisible, hopen, first, rfl⟩ := settleStandard?_true hstep
      rcases List.mem_cons.1 hg with rfl | hg
      · exact ⟨hstandard, hvisible, hopen,
          settleAll_true_noWider.graphCollapsed (graphCollapsed_hideGraph hvisible)⟩
      · -- less was on screen when its turn came, and no less was collapsed
        obtain ⟨hstandard, hvisible, hopen, hcollapsed⟩ := ih hg
        exact ⟨hstandard, hideGraph_noWider.graphVisible hvisible,
          hideGraph_noWider.graphCollapsed_eq_false hopen, hcollapsed⟩

/-- One folding is the other one with all standard graphs collapsed, of which those given
    were toggled. -/
structure CollapsesStandard (s : Scene) (f f' : Folding) (done : List GraphId) : Prop where
  noWider : NoWider f' f
  settled : ∀ g, s.Standard g → f'.graphCollapsed g ∨ f'.graphVisible g = false
  increasing : done.Pairwise (·.index < ·.index)
  toggled : ∀ g ∈ done, s.Standard g ∧ f.graphVisible g ∧ f.graphCollapsed g = false ∧
    f'.graphCollapsed g
  /-- A second pass has nothing to do. -/
  again : s.toggleStandard true f' = (f', [])

/-- One pass collapses all standard graphs, whatever is folded before. -/
theorem toggleStandard_collapses (s : Scene) (f : Folding) :
    s.CollapsesStandard f (s.toggleStandard true f).1 (s.toggleStandard true f).2 := by
  have hsettled : ∀ g, s.Settled true (s.toggleStandard true f).1 g := fun g hstandard =>
    settled_settleAll_true g hstandard.mem_graphIds hstandard
  exact {
    noWider := settleAll_true_noWider
    settled := fun g hstandard => by
      cases hvisible : (s.toggleStandard true f).1.graphVisible g with
      | false => exact Or.inr rfl
      | true => exact Or.inl (hsettled g hstandard hvisible)
    increasing := (pairwise_graphIds s.pipeline).sublist (settleAll_sublist s true f _)
    toggled := fun g hg => of_mem_settleAll_true hg
    again := toggleStandard_eq_self_iff.2 hsettled }

/-! ## Expanding all -/

theorem graphCollapsed_restoreGraph_self :
    (s.restoreGraph f g first).1.graphCollapsed g = false :=
  Bool.eq_false_iff.2 fun hcollapsed => (graphCollapsed_restoreGraph.1 hcollapsed).2 rfl

/-- Restoring a graph that is on screen shows no graphs but those that own a codec below
    its first one. -/
theorem ownsBelow_of_restoreGraph (hs : s.Sound) (hf : s.Regular f) (hg : f.graphVisible g)
    (hh : (s.restoreGraph f g first).1.graphVisible h) (hhidden : f.graphVisible h = false) :
    s.OwnsBelow first h := by
  have hne : h ≠ g := by
    rintro rfl
    rw [hg] at hhidden
    cases hhidden
  have hshown : s.Fits ((f.moveGraph .expand g).moveGraph .show g) :=
    (hf.toFits.moveGraphs .expand [g]).moveGraphs .show [g]
  have hbefore : ((f.moveGraph .expand g).moveGraph .show g).graphVisible h = false := by
    refine Bool.eq_false_iff.2 fun hvisible => ?_
    simp [moveGraph_eq, hne, hhidden] at hvisible
  simp only [restoreGraph] at hh
  split at hh
  · -- the first codec is collapsed, so what hangs below it is shown
    rw [moveCodec_eq, graphVisible_moveCodecs, graphVisible_expandBelow hs hshown, hbefore] at hh
    exact (hh.resolve_left Bool.false_ne_true).ownsBelow
  · -- only codecs are shown
    rw [moveCodec_eq, graphVisible_moveCodecs, graphVisible_moveCodecs, hbefore] at hh
    cases hh

theorem noWider_settleAll_false : NoWider f (s.settleAll false f gs).1 := by
  induction gs generalizing f with
  | nil => exact .refl f
  | cons g gs ih =>
    cases hstep : s.settleStandard? false f g with
    | none =>
      rw [settleAll_cons_of_none hstep]
      exact ih
    | some f₁ =>
      rw [settleAll_cons_of_some hstep]
      obtain ⟨-, -, first, -, rfl⟩ := settleStandard?_false hstep
      exact noWider_restoreGraph.trans ih

/-- A graph owns a codec below the first codec of another one. -/
def RestoredBy (s : Scene) (h g : GraphId) : Prop :=
  ∃ first, s.standardFirst? h = some first ∧ s.OwnsBelow first g

/-- What a pass brings on screen, one of the graphs that it restores brings. -/
theorem exists_restoredBy (hs : s.Sound) (hf : s.Regular f) (hhidden : f.graphVisible g = false)
    (hvisible : (s.settleAll false f gs).1.graphVisible g) :
    ∃ h ∈ (s.settleAll false f gs).2, s.RestoredBy h g := by
  induction gs generalizing f with
  | nil =>
    rw [settleAll, hhidden] at hvisible
    cases hvisible
  | cons h gs ih =>
    cases hstep : s.settleStandard? false f h with
    | none =>
      rw [settleAll_cons_of_none hstep] at hvisible ⊢
      exact ih hf hhidden hvisible
    | some f₁ =>
      rw [settleAll_cons_of_some hstep] at hvisible ⊢
      obtain ⟨hh, -, first, hfirst, rfl⟩ := settleStandard?_false hstep
      cases hnow : (s.restoreGraph f h first).1.graphVisible g with
      | true =>
        -- the graph that is restored now brings it
        have hbelow := ownsBelow_of_restoreGraph hs hf hh hnow hhidden
        exact ⟨h, List.mem_cons_self, first, hfirst, hbelow⟩
      | false =>
        -- a graph that is restored later does
        obtain ⟨h', hh', hrestored⟩ := ih (hf.restoreGraph h first) hnow hvisible
        exact ⟨h', List.mem_cons_of_mem h hh', hrestored⟩

/-- What a pass leaves collapsed on screen was hidden when its turn came, and was brought
    back by a graph whose turn came later. -/
theorem left_of_settleAll_false (hs : s.Sound) (hf : s.Regular f)
    (hgs : gs.Pairwise (·.index < ·.index)) (hmem : g ∈ gs) (hstandard : s.Standard g)
    (hvisible : (s.settleAll false f gs).1.graphVisible g)
    (hcollapsed : (s.settleAll false f gs).1.graphCollapsed g) :
    f.graphVisible g = false ∧
      ∃ h ∈ (s.settleAll false f gs).2, g.index < h.index ∧ s.RestoredBy h g := by
  induction gs generalizing f with
  | nil => exact absurd hmem List.not_mem_nil
  | cons g' gs ih =>
    obtain ⟨hlater, hgs⟩ := List.pairwise_cons.1 hgs
    cases hstep : s.settleStandard? false f g' with
    | none =>
      rw [settleAll_cons_of_none hstep] at hvisible hcollapsed ⊢
      rcases List.mem_cons.1 hmem with rfl | hmem
      · -- it was settled without being expanded, so it was hidden
        have hhidden : f.graphVisible g = false := by
          refine Bool.eq_false_iff.2 fun hbefore => ?_
          have hopen := settleStandard?_eq_none.1 hstep hstandard hbefore
          rw [noWider_settleAll_false.graphCollapsed hcollapsed] at hopen
          cases hopen
        obtain ⟨h, hh, hrestored⟩ := exists_restoredBy hs hf hhidden hvisible
        exact ⟨hhidden, h, hh, hlater h ((settleAll_sublist s false f gs).subset hh), hrestored⟩
      · exact ih hf hgs hmem hvisible hcollapsed
    | some f₁ =>
      rw [settleAll_cons_of_some hstep] at hvisible hcollapsed ⊢
      obtain ⟨-, -, first, -, rfl⟩ := settleStandard?_false hstep
      rcases List.mem_cons.1 hmem with rfl | hmem
      · -- it was expanded, and the rest of the pass collapses nothing
        have hnow := noWider_settleAll_false.graphCollapsed hcollapsed
        exact absurd hnow (Bool.eq_false_iff.1 graphCollapsed_restoreGraph_self)
      · obtain ⟨hhidden, h, hh, hrestored⟩ :=
          ih (hf.restoreGraph g' first) hgs hmem hvisible hcollapsed
        exact ⟨noWider_restoreGraph.graphVisible_eq_false hhidden, h,
          List.mem_cons_of_mem g' hh, hrestored⟩

/-- What is toggled by a pass that expands was collapsed before, and is not after it. -/
theorem of_mem_settleAll_false (hg : g ∈ (s.settleAll false f gs).2) :
    s.Standard g ∧ f.graphCollapsed g ∧ (s.settleAll false f gs).1.graphVisible g ∧
      (s.settleAll false f gs).1.graphCollapsed g = false := by
  induction gs generalizing f with
  | nil => exact absurd hg List.not_mem_nil
  | cons g' gs ih =>
    cases hstep : s.settleStandard? false f g' with
    | none =>
      rw [settleAll_cons_of_none hstep] at hg ⊢
      exact ih hg
    | some f₁ =>
      rw [settleAll_cons_of_some hstep] at hg ⊢
      obtain ⟨hvisible, hcollapsed, first, hfirst, rfl⟩ := settleStandard?_false hstep
      rcases List.mem_cons.1 hg with rfl | hg
      · exact ⟨standard_iff.2 ⟨first, hfirst⟩, hcollapsed,
          (noWider_restoreGraph.trans noWider_settleAll_false).graphVisible hvisible,
          noWider_settleAll_false.graphCollapsed_eq_false graphCollapsed_restoreGraph_self⟩
      · obtain ⟨hstandard, hcollapsed, hafter⟩ := ih hg
        exact ⟨hstandard, noWider_restoreGraph.graphCollapsed hcollapsed, hafter⟩

/-! ## Passes one after the other -/

/-- The folds after one pass that expands. -/
def expandStandard (s : Scene) (f : Folding) : Folding :=
  (s.toggleStandard false f).1

theorem regular_expandStandard (hs : s.Sound) (hf : s.Regular f) :
    s.Regular (s.expandStandard f) :=
  hf.settleAll hs false s.pipeline.graphIds

/-- What is on screen before a pass is not collapsed after it. -/
theorem graphCollapsed_expandStandard (hs : s.Sound) (hf : s.Regular f) (hg : s.Standard g)
    (hvisible : f.graphVisible g) : (s.expandStandard f).graphCollapsed g = false := by
  refine Bool.eq_false_iff.2 fun hcollapsed => ?_
  have hleft := left_of_settleAll_false hs hf (pairwise_graphIds s.pipeline) hg.mem_graphIds hg
    (noWider_settleAll_false.graphVisible hvisible) hcollapsed
  rw [hvisible] at hleft
  cases hleft.1

/-- A pass that finds a graph to toggle leaves fewer graphs collapsed. -/
theorem countP_expandStandard_lt (hs : s.Sound) (hf : s.Regular f) (hg : s.Standard g)
    (hvisible : f.graphVisible g) (hcollapsed : f.graphCollapsed g) :
    s.pipeline.graphIds.countP (s.expandStandard f).graphCollapsed
      < s.pipeline.graphIds.countP f.graphCollapsed :=
  countP_lt_countP (fun _ _ h => noWider_settleAll_false.graphCollapsed h) hg.mem_graphIds
    hcollapsed (graphCollapsed_expandStandard hs hf hg hvisible)

/-- As many passes as graphs are collapsed settle all. -/
theorem exists_settled (hs : s.Sound) (hf : s.Regular f) :
    ∃ n ≤ s.pipeline.graphIds.countP f.graphCollapsed,
      ∀ g, s.Settled false (s.expandStandard^[n] f) g := by
  induction hcount : s.pipeline.graphIds.countP f.graphCollapsed using Nat.strongRecOn
      generalizing f with
  | _ count ih =>
    by_cases hdone : ∀ g, s.Settled false f g
    · exact ⟨0, Nat.zero_le _, hdone⟩
    · -- a graph is left to toggle, so a pass leaves fewer graphs collapsed
      unfold Settled at hdone
      push Not at hdone
      obtain ⟨g, hg, hvisible, hne⟩ := hdone
      have hlt := countP_expandStandard_lt hs hf hg hvisible (Bool.ne_false_iff.1 hne)
      obtain ⟨n, hn, hsettled⟩ := ih _ (hcount ▸ hlt) (regular_expandStandard hs hf) rfl
      refine ⟨n + 1, by omega, ?_⟩
      rwa [Function.iterate_succ_apply]

/-- One folding is the other one after a pass that expands standard graphs, of which those
    given were toggled. -/
structure ExpandsStandard (s : Scene) (f f' : Folding) (done : List GraphId) : Prop where
  noWider : NoWider f f'
  toggled : ∀ g ∈ done, s.Standard g ∧ f.graphCollapsed g ∧ f'.graphVisible g ∧
    f'.graphCollapsed g = false
  /-- What is still collapsed on screen was hidden before, and a later graph brought it
      back. -/
  left : ∀ g, s.Standard g → f'.graphVisible g → f'.graphCollapsed g →
    f.graphVisible g = false ∧ ∃ h ∈ done, g.index < h.index ∧ s.RestoredBy h g
  /-- A second pass toggles nothing that was on screen before the first one. -/
  again : ∀ g ∈ (s.toggleStandard false f').2, f.graphVisible g = false
  /-- It does nothing exactly if nothing is left. -/
  again_iff : s.toggleStandard false f' = (f', []) ↔
    ∀ g, s.Standard g → f'.graphVisible g → f'.graphCollapsed g = false
  /-- As many passes as there are graphs leave nothing. -/
  settles : ∃ n ≤ s.pipeline.graphs.size, ∀ g, s.Standard g →
    (s.expandStandard^[n] f).graphVisible g → (s.expandStandard^[n] f).graphCollapsed g = false

/-- A pass over the standard graphs of a folding that can be reached expands all that were
    on screen, and leaves only what later graphs bring back. -/
theorem toggleStandard_expands {t : Trace} {settings : Settings}
    (hbuild : Scene.build t settings = .ok s) (hreach : s.Reachable f) :
    s.ExpandsStandard f (s.toggleStandard false f).1 (s.toggleStandard false f).2 := by
  have hs := sound_of_build hbuild
  have hf := hreach.regular hs
  exact {
    noWider := noWider_settleAll_false
    toggled := fun g hg => of_mem_settleAll_false hg
    left := fun g hg => left_of_settleAll_false hs hf (pairwise_graphIds s.pipeline)
      hg.mem_graphIds hg
    again := fun g hg => by
      obtain ⟨hstandard, hcollapsed, -⟩ := of_mem_settleAll_false hg
      refine Bool.eq_false_iff.2 fun hvisible => ?_
      have hopen := graphCollapsed_expandStandard hs hf hstandard hvisible
      rw [expandStandard, hcollapsed] at hopen
      cases hopen
    again_iff := toggleStandard_eq_self_iff
    settles := by
      obtain ⟨n, hn, hsettled⟩ := exists_settled hs hf
      have hlength : s.pipeline.graphIds.length = s.pipeline.graphs.size := by
        simp [Pipeline.graphIds]
      exact ⟨n, hlength ▸ hn.trans List.countP_le_length, hsettled⟩ }

/-- With all of a chain collapsed, a pass that expands is not the last one. -/
theorem toggleStandard_expands_chain : ∃ s f, Scene.build chain {} = .ok s ∧ s.Reachable f ∧
    f = (s.toggleStandard true s.start).1 ∧
    s.ExpandsStandard f (s.toggleStandard false f).1 (s.toggleStandard false f).2 := by
  obtain ⟨s, hs⟩ := exists_build_chain
  have hf : s.Reachable (s.toggleStandard true s.start).1 := Reachable.start.toggleStandard true
  exact ⟨s, _, hs, hf, rfl, toggleStandard_expands hs hf⟩

/-- The graph at the end of the chain comes first in the pass, while it is hidden, and is
    still collapsed when the other one brings it back. -/
theorem exists_left_collapsed : ∃ s f, Scene.build chain {} = .ok s ∧ s.Reachable f ∧
    f = (s.toggleStandard true s.start).1 ∧ s.Standard ⟨0⟩ ∧
    (s.expandStandard f).graphVisible ⟨0⟩ ∧ (s.expandStandard f).graphCollapsed ⟨0⟩ ∧
    (s.toggleStandard false (s.expandStandard f)).2 = [⟨0⟩] := by
  have hrun : (Scene.build chain {}).toOption.any (fun s =>
      let f := s.expandStandard (s.toggleStandard true s.start).1
      (s.standardFirst? ⟨0⟩).isSome && f.graphVisible ⟨0⟩ && f.graphCollapsed ⟨0⟩
        && (s.toggleStandard false f).2 == [⟨0⟩]) = true := by
    decide +kernel
  obtain ⟨s, hs⟩ := exists_build_chain
  simp only [hs, Except.toOption, Option.any_some, Bool.and_eq_true, beq_iff_eq] at hrun
  obtain ⟨⟨⟨hstandard, hvisible⟩, hcollapsed⟩, hagain⟩ := hrun
  exact ⟨s, _, hs, Reachable.start.toggleStandard true, rfl,
    standard_iff.2 (Option.isSome_iff_exists.1 hstandard), hvisible, hcollapsed, hagain⟩

end TraceFold.Scene
