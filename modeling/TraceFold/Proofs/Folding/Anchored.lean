/-
  TraceFold.Proofs.Folding.Anchored

  Whether a graph that is not collapsed is on screen with its codecs (`Anchored`).  Graphs
  are shown and hidden only along with codecs, so this is no matter of one check.  It holds
  at the start, and it is said exactly which actions end it (`Detaches`): expanding the
  graph while it is hidden, and showing one level inside it then.  Neither is done to a node
  on screen.  Of a collapsed graph nothing is said: collapsing a codec above one of its
  codecs hides it, whatever its other codecs do.
-/

import TraceFold.Proofs.Folding.Focus
import TraceFold.Proofs.Folding.HideAll

namespace TraceFold.Scene

open Dag (Child)

variable {s : Scene} {f f' : Folding} {c first : CodecId} {g h : GraphId}
  {l : List (GraphId × CodecId)} {a : Action}

/-- A graph is on screen if a codec of it is, unless it is collapsed. -/
def Anchored (s : Scene) (f : Folding) (g : GraphId) : Prop :=
  ∀ x, s.pipeline.owner? x = some g → f.codecVisible x → f.graphCollapsed g = false →
    f.graphVisible g

/-- A codec feeds another one in its graph, which is hidden, but not collapsed. -/
def LevelDetaches (s : Scene) (f : Folding) (g : GraphId) (c : CodecId) : Prop :=
  s.pipeline.owner? c = some g ∧ f.graphCollapsed g = false ∧ f.graphVisible g = false ∧
    ∃ x, Child s.dag.children c x ∧ s.pipeline.owner? x = some g

/-- An action shows codecs of a graph that stays hidden. -/
def Detaches (s : Scene) (f : Folding) (g : GraphId) : Action → Prop
  | .toggle (.codec _) => False
  | .toggle (.graph h) => h = g ∧ f.graphCollapsed g ∧ f.graphVisible g = false
  | .expand c => s.LevelDetaches f g c
  | .hide _ => False
  | .standard _ => False

/-- What is not collapsed was not collapsed before, if nothing has been expanded. -/
theorem not_collapsed_of_imp (hkept : f.graphCollapsed g → f'.graphCollapsed g)
    (hopen : f'.graphCollapsed g = false) : f.graphCollapsed g = false :=
  Bool.eq_false_iff.2 fun hcollapsed => Bool.eq_false_iff.1 hopen (hkept hcollapsed)

namespace Anchored

/-! ## Toggles that leave a graph with its codecs -/

theorem expandBelow (hg : s.Anchored f g) (hs : s.Sound) (hf : s.Fits f) (c : CodecId) :
    s.Anchored (s.expandBelow f c).1 g := by
  intro x hown hx hopen
  rw [graphCollapsed_expandBelow] at hopen
  rw [graphVisible_expandBelow hs hf]
  rcases (codecVisible_expandBelow hs hf).1 hx with hx | hbared
  · exact Or.inl (hg x hown hx hopen)
  · -- a codec that is met shows its graph
    exact Or.inr ⟨x, hbared.1, hown⟩

/-- A graph that is not collapsed stays on screen as long as one of its codecs does. -/
theorem collapseBelow (hg : s.Anchored f g) (hs : s.Sound) (c : CodecId) :
    s.Anchored (s.collapseBelow f c).1 g := by
  intro x hown hx hopen
  rw [graphCollapsed_collapseBelow] at hopen
  obtain ⟨hx, hnot⟩ := (codecVisible_collapseBelow hs).1 hx
  rw [graphVisible_collapseBelow hs]
  exact ⟨hg x hown hx hopen, fun _ => ⟨hopen, x, hown, hx, hnot⟩⟩

theorem collapseGraph (hg : s.Anchored f g) (hs : s.Sound) (h : GraphId) :
    s.Anchored (s.collapseGraph f h).1 g := by
  intro x hown hx hopen
  have hx := ((codecVisible_collapseGraph hs).1 hx).1
  rw [graphVisible_collapseGraph]
  have hopen' : f.graphCollapsed g = false :=
    not_collapsed_of_imp (fun hg => graphCollapsed_collapseGraph.2 (Or.inl hg)) hopen
  exact hg x hown hx hopen'

/-- Hiding a graph takes graphs off the screen only if none of their codecs is left there. -/
theorem hideGraph (hg : s.Anchored f g) (hs : s.Sound) (hf : s.Fits f)
    (hfirst : s.firstCodec h = .ok first) : s.Anchored (s.hideGraph f h first).1 g := by
  intro x hown hx hopen
  obtain ⟨hx, hroot⟩ := (codecVisible_hideGraph hs).1 hx
  have hopen' : f.graphCollapsed g = false :=
    not_collapsed_of_imp (fun hg =>
      (graphCollapsed_hideGraph_of_first hs hf hfirst).2 (Or.inl hg)) hopen
  refine (graphVisible_hideGraph hs).2 ⟨hg x hown hx hopen', fun hunfolded _ => ?_⟩
  -- what is still on screen is not below the first codec: the root is below no codec
  exact ⟨hopen', x, hown, hx, fun hbelow =>
    hs.ne_root_of_below hbelow (hroot (Or.inr ⟨hunfolded, hbelow⟩))⟩

theorem restoreGraph (hg : s.Anchored f g) (hs : s.Sound) (hf : s.Fits f)
    (hfirst : s.firstCodec h = .ok first) : s.Anchored (s.restoreGraph f h first).1 g := by
  intro x hown hx hopen
  rw [graphVisible_restoreGraph hs hf hfirst]
  by_cases heq : g = h
  · exact Or.inl (Or.inr heq)
  have hopen' : f.graphCollapsed g = false :=
    not_collapsed_of_imp (fun hg => graphCollapsed_restoreGraph.2 ⟨hg, heq⟩) hopen
  -- only below a collapsed first codec are codecs of other graphs shown, and with them these
  have hother : s.pipeline.owner? x ≠ some h := fun hown' =>
    heq (Option.some.inj (hown.symm.trans hown'))
  rcases (codecVisible_restoreGraph hs hf hfirst).1 hx with hx | rfl | hrestored
  · exact Or.inl (Or.inl (hg x hown hx hopen'))
  · exact absurd (hs.owner?_first hfirst) hother
  · split at hrestored
    · rename_i hcollapsed
      exact Or.inr ⟨hcollapsed, x, met_unveil.1 hrestored.1, hown⟩
    · exact absurd hrestored.owner?_within hother

theorem hideAll (hg : s.Anchored f g) (hs : s.Sound) (hf : s.Fits f) (hl : s.AtFirst l) :
    s.Anchored (s.hideAll f l) g := by
  induction l generalizing f with
  | nil => exact hg
  | cons p l ih =>
    obtain ⟨hp, hl⟩ := List.forall_mem_cons.1 hl
    exact ih (hg.hideGraph hs hf hp) (hf.hideGraph p.1 p.2) hl

theorem settleAll (hg : s.Anchored f g) (hs : s.Sound) (hf : s.Regular f) (collapse : Bool)
    (gs : List GraphId) : s.Anchored (s.settleAll collapse f gs).1 g := by
  cases collapse with
  | true =>
    obtain ⟨l, hl, -, heq⟩ := exists_settleAll_eq_hideAll s f gs
    rw [heq]
    exact hg.hideAll hs hf.toFits hl
  | false =>
    refine settleAll_false_induction (P := fun f => s.Anchored f g) hf hg ?_ gs
    exact fun f h first hf hg hfirst => hg.restoreGraph hs hf.toFits hfirst

end Anchored

/-! ## Toggles that need not -/

/-- Expanding a graph shows its first codec and does nothing to where the graph is. -/
theorem anchored_expandGraph_iff (hg : s.Anchored f g) (hs : s.Sound) (hf : s.Fits f)
    (hfirst : s.firstCodec h = .ok first) :
    s.Anchored (s.expandGraph f h first).1 g ↔ (h = g → f.graphVisible g) := by
  refine ⟨?_, fun hvisible x hown hx hopen => ?_⟩
  · rintro hanchored rfl
    have hshown := (codecVisible_expandGraph hs hf hfirst).2 (Or.inr (Or.inl rfl))
    have hopen : (s.expandGraph f h first).1.graphCollapsed h = false :=
      Bool.eq_false_iff.2 fun hcollapsed => (graphCollapsed_expandGraph.1 hcollapsed).2 rfl
    rw [← graphVisible_expandGraph]
    exact hanchored first (hs.owner?_first hfirst) hshown hopen
  · rw [graphVisible_expandGraph]
    by_cases heq : g = h
    · exact hvisible heq.symm
    · have hopen' : f.graphCollapsed g = false :=
        not_collapsed_of_imp (fun hg => graphCollapsed_expandGraph.2 ⟨hg, heq⟩) hopen
      rcases (codecVisible_expandGraph hs hf hfirst).1 hx with hx | hopened
      · exact hg x hown hx hopen'
      · -- only codecs of the graph that is expanded are shown
        have hown' := hopened.owner? hs hfirst
        exact absurd (Option.some.inj (hown.symm.trans hown')) heq

theorem anchored_expandLevel_iff (hg : s.Anchored f g) (hs : s.Sound) (hf : s.Fits f) :
    s.Anchored (s.expandLevel f c).1 g ↔ ¬s.LevelDetaches f g c := by
  refine ⟨?_, fun hnot x hown hx hopen => ?_⟩
  · rintro hanchored ⟨hown, hopen, hhidden, x, hchild, hx⟩
    -- the graph is the codec's own, so it is neither shown nor collapsed
    have hborders : ¬s.Borders c g := fun hborders => hborders.1 hown
    have hnear : s.Near c x := ⟨hchild, fun g' hg' => by rw [hown, ← hg', hx]⟩
    have hopen' : (s.expandLevel f c).1.graphCollapsed g = false :=
      not_collapsed_of_imp
        (fun hg => ((graphCollapsed_expandLevel hs hf).1 hg).resolve_right hborders) hopen
    have hshown := (codecVisible_expandLevel hs hf).2 (Or.inr hnear)
    have hvisible := (graphVisible_expandLevel hs hf).1 (hanchored x hx hshown hopen')
    rw [hvisible.resolve_right hborders] at hhidden
    cases hhidden
  · have hopen' : f.graphCollapsed g = false :=
      not_collapsed_of_imp (fun hg => (graphCollapsed_expandLevel hs hf).2 (Or.inl hg)) hopen
    refine (graphVisible_expandLevel hs hf).2 (Or.inl ?_)
    rcases (codecVisible_expandLevel hs hf).1 hx with hx | ⟨hchild, hnear⟩
    · exact hg x hown hx hopen'
    · by_contra hhidden
      exact hnot ⟨hnear g hown, hopen', Bool.eq_false_iff.2 hhidden, x, hchild, hown⟩

/-! ## Actions and the start -/

/-- With nothing folded, every graph that owns a codec is on screen. -/
theorem anchored_unfolded (hs : s.Sound) : s.Anchored (Folding.unfolded s.pipeline) g := by
  intro x hown _ _
  exact Folding.graphVisible_unfolded.2 (hs.graph_lt hown)

theorem anchored_start (hs : s.Sound) : s.Anchored s.start g := by
  obtain ⟨l, hl, heq⟩ := exists_start_eq_hideAll s
  rw [heq]
  exact (anchored_unfolded hs).hideAll hs (Regular.unfolded hs).toFits hl

/-- After an action a graph is still with its codecs exactly if the action does not show
    codecs of it while it stays hidden. -/
theorem Anchored.apply_iff (hg : s.Anchored f g) (hs : s.Sound) (hf : s.Regular f)
    {r : Folding × List NodeId} (ha : s.apply f a = .ok r) :
    s.Anchored r.1 g ↔ ¬s.Detaches f g a := by
  cases step_of_apply ha with
  | collapseBelow _ _ => exact iff_of_true (hg.collapseBelow hs _) not_false
  | expandBelow _ _ => exact iff_of_true (hg.expandBelow hs hf.toFits _) not_false
  | @collapseGraph h _ hopen =>
    refine iff_of_true (hg.collapseGraph hs h) ?_
    rintro ⟨rfl, hcollapsed, -⟩
    rw [hopen] at hcollapsed
    cases hcollapsed
  | @expandGraph h _ hfirst hcollapsed =>
    rw [anchored_expandGraph_iff hg hs hf.toFits hfirst]
    refine ⟨?_, fun hnot heq => ?_⟩
    · rintro hvisible ⟨heq, -, hhidden⟩
      rw [hvisible heq] at hhidden
      cases hhidden
    · by_contra hhidden
      exact hnot ⟨heq, heq ▸ hcollapsed, Bool.eq_false_iff.2 hhidden⟩
  | expandLevel _ => exact anchored_expandLevel_iff hg hs hf.toFits
  | hideGraph hfirst _ => exact iff_of_true (hg.hideGraph hs hf.toFits hfirst) not_false
  | restoreGraph hfirst _ => exact iff_of_true (hg.restoreGraph hs hf.toFits hfirst) not_false
  | standard collapse => exact iff_of_true (hg.settleAll hs hf collapse _) not_false

/-- An action is done to a node on screen, if it is done to one at all. -/
def OnScreen (f : Folding) (a : Action) : Prop :=
  ∀ n, a.target? = some n → f.nodeVisible n

/-- No action on a node that is on screen detaches codecs. -/
theorem Anchored.not_detaches (hg : s.Anchored f g) (hvisible : OnScreen f a) :
    ¬s.Detaches f g a := by
  cases a with
  | toggle n =>
    cases n with
    | codec c => exact not_false
    | graph h =>
      rintro ⟨rfl, -, hhidden⟩
      have hh : f.graphVisible h := hvisible (.graph h) rfl
      rw [hh] at hhidden
      cases hhidden
  | expand c =>
    rintro ⟨hown, hopen, hhidden, -⟩
    rw [hg c hown (hvisible (.codec c) rfl) hopen] at hhidden
    cases hhidden
  | hide h => exact not_false
  | standard collapse => exact not_false

/-- Actions that detach no codecs of a graph lead only to foldings in which it is with its
    codecs. -/
theorem ReachableBy.anchored (hs : s.Sound)
    (hf : s.ReachableBy (fun f a => ¬s.Detaches f g a) f) : s.Anchored f g := by
  induction hf with
  | start => exact anchored_start hs
  | step hf hnot ha ih => exact (ih.apply_iff hs (hf.reachable.regular hs) ha).2 hnot

/-- Actions on nodes that are on screen never detach codecs. -/
theorem ReachableBy.of_onScreen (hs : s.Sound) (hf : s.ReachableBy OnScreen f) :
    s.ReachableBy (fun f a => ¬s.Detaches f g a) f := by
  induction hf with
  | start => exact .start
  | step _ hvisible ha ih => exact .step ih ((ih.anchored hs).not_detaches hvisible) ha

end TraceFold.Scene
