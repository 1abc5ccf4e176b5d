/-
  TraceFold.Proofs.Folding.Sealed

  Whether a collapsed graph stands in for its codecs: whether none of them but the root is
  on screen (`Sealed`).  Toggling a node keeps it so, and so does restoring a graph.  Two
  kinds of action need not, and it is said exactly when they do (`Seals`):

    * Hiding graphs takes off what is below their first codecs.  Codecs of theirs that are
      elsewhere stay where they are (`Covers`).
    * Showing one level collapses the graphs next to a codec and hides none of their codecs,
      and it shows codecs of a graph without asking whether the graph is collapsed.
-/

import TraceFold.Proofs.Folding.HideAll

namespace TraceFold.Scene

open Folding
open CommandLine (applyAll)
open Dag (Child)

variable {s : Scene} {f : Folding} {c x first : CodecId} {g : GraphId} {gs : List GraphId}
  {l : List (GraphId × CodecId)} {hidden : GraphId → Prop}

/-! ## Graphs that stand in for their codecs -/

/-- No codec of a graph is on screen, except for the root. -/
def Vacant (s : Scene) (f : Folding) (g : GraphId) : Prop :=
  ∀ x, s.pipeline.owner? x = some g → f.codecVisible x → x = .root

/-- Every graph that is collapsed stands in for all of its codecs. -/
def Sealed (s : Scene) (f : Folding) : Prop :=
  ∀ g, f.graphCollapsed g → s.Vacant f g

/-- Hiding some graphs takes all codecs of theirs that are on screen off it: each is the
    root, the first codec of one of the graphs, or below one that is not collapsed. -/
def Covers (s : Scene) (f : Folding) (hidden : GraphId → Prop) : Prop :=
  ∀ g, hidden g → ∀ x, s.pipeline.owner? x = some g → f.codecVisible x →
    x = .root ∨ ∃ h first, hidden h ∧ s.firstCodec h = .ok first ∧ s.Swept f first x

/-- Showing the level below a codec collapses only graphs of which nothing is on screen, and
    shows no codec of a collapsed graph. -/
structure LevelSeals (s : Scene) (f : Folding) (c : CodecId) : Prop where
  borders : ∀ g, s.Borders c g → s.Vacant f g
  within : ∀ g, s.pipeline.owner? c = some g → f.graphCollapsed g →
    ∀ x, Child s.dag.children c x → s.pipeline.owner? x ≠ some g

/-- An action leaves every collapsed graph to stand in for its codecs, if each did before. -/
def Seals (s : Scene) (f : Folding) : Action → Prop
  | .toggle _ => True
  | .expand c => s.LevelSeals f c
  | .hide g => f.graphCollapsed g ∨ s.Covers f (· = g)
  | .standard true => s.Covers f (· ∈ (s.toggleStandard true f).2)
  | .standard false => True

/-! ## Toggles that keep graphs sealed -/

namespace Sealed

/-- Expanding shows no codec of a collapsed graph. -/
theorem expandBelow (h : s.Sealed f) (hs : s.Sound) (hf : s.Fits f) (c : CodecId) :
    s.Sealed (s.expandBelow f c).1 := by
  intro g hg x hown hx
  rw [graphCollapsed_expandBelow] at hg
  rcases (codecVisible_expandBelow hs hf).1 hx with hx | hbared
  · exact h g hg x hown hx
  · -- what is shown is not inside a collapsed graph
    have hopen := hbared.2 g hown
    rw [hg] at hopen
    cases hopen

theorem collapseBelow (h : s.Sealed f) (hs : s.Sound) (c : CodecId) :
    s.Sealed (s.collapseBelow f c).1 := by
  intro g hg x hown hx
  rw [graphCollapsed_collapseBelow] at hg
  exact h g hg x hown ((codecVisible_collapseBelow hs).1 hx).1

/-- A graph that is collapsed has all its codecs hidden. -/
theorem collapseGraph (h : s.Sealed f) (hs : s.Sound) (g : GraphId) :
    s.Sealed (s.collapseGraph f g).1 := by
  intro g' hg' x hown hx
  obtain ⟨hx, hroot⟩ := (codecVisible_collapseGraph hs).1 hx
  rcases graphCollapsed_collapseGraph.1 hg' with hg' | ⟨rfl, -⟩
  · exact h g' hg' x hown hx
  · exact hroot hown

/-- Expanding a graph shows codecs of this one only, which is not collapsed any more. -/
theorem expandGraph (h : s.Sealed f) (hs : s.Sound) (hf : s.Fits f)
    (hfirst : s.firstCodec g = .ok first) : s.Sealed (s.expandGraph f g first).1 := by
  intro g' hg' x hown hx
  obtain ⟨hg', hne⟩ := graphCollapsed_expandGraph.1 hg'
  rcases (codecVisible_expandGraph hs hf hfirst).1 hx with hx | hopened
  · exact h g' hg' x hown hx
  · -- only codecs of the graph that is expanded are shown
    have hown' := hopened.owner? hs hfirst
    exact absurd (Option.some.inj (hown.symm.trans hown')) hne

/-- Restoring a graph shows codecs of this one, or of graphs that are not collapsed. -/
theorem restoreGraph (h : s.Sealed f) (hs : s.Sound) (hf : s.Fits f)
    (hfirst : s.firstCodec g = .ok first) : s.Sealed (s.restoreGraph f g first).1 := by
  intro g' hg' x hown hx
  obtain ⟨hg', hne⟩ := graphCollapsed_restoreGraph.1 hg'
  have hother : s.pipeline.owner? x ≠ some g := fun hown' =>
    hne (Option.some.inj (hown.symm.trans hown'))
  rcases (codecVisible_restoreGraph hs hf hfirst).1 hx with hx | rfl | hrestored
  · exact h g' hg' x hown hx
  · exact absurd (hs.owner?_first hfirst) hother
  · split at hrestored
    · -- the graph is collapsed in the folding in which the first codec is expanded
      have hopen := hrestored.2 g' hown
      rw [graphCollapsed_unveil.2 ⟨hg', hne⟩] at hopen
      cases hopen
    · exact absurd hrestored.owner?_within hother

theorem settleAll_false (h : s.Sealed f) (hs : s.Sound) (hf : s.Regular f) (gs : List GraphId) :
    s.Sealed (s.settleAll false f gs).1 :=
  settleAll_false_induction hf h (fun _ _ _ hf h hfirst => h.restoreGraph hs hf.toFits hfirst) gs

end Sealed

/-! ## Hiding graphs -/

/-- Graphs stay sealed while some are hidden exactly if that takes all their codecs off the
    screen. -/
theorem sealed_hideAll_iff (h : s.Sealed f) (hs : s.Sound) (hf : s.Fits f) (hl : s.AtFirst l) :
    s.Sealed (s.hideAll f l) ↔ s.Covers f (· ∈ l.map Prod.fst) := by
  have hhidden : ∀ g, g ∈ l.map Prod.fst ↔ ∃ p ∈ l, g = p.1 := by
    intro g
    simp only [List.mem_map, eq_comm]
  -- every graph of the list comes with its first codec, so the list need not be named
  have hsweep : ∀ x, (∃ h first, h ∈ l.map Prod.fst ∧ s.firstCodec h = .ok first ∧
      s.Swept f first x) ↔ ∃ p ∈ l, s.Swept f p.2 x := by
    intro x
    refine ⟨?_, ?_⟩
    · rintro ⟨h, first, hmem, hfirst, hx⟩
      obtain ⟨p, hp, rfl⟩ := (hhidden h).1 hmem
      obtain rfl := Except.ok.inj ((hl p hp).symm.trans hfirst)
      exact ⟨p, hp, hx⟩
    · rintro ⟨p, hp, hx⟩
      exact ⟨p.1, p.2, (hhidden p.1).2 ⟨p, hp, rfl⟩, hl p hp, hx⟩
  refine ⟨fun hsealed g hg x hown hx => ?_, fun hcovers g hg x hown hx => ?_⟩
  · rw [hsweep]
    -- if nothing takes the codec off the screen, it is still there
    by_contra hnot
    obtain ⟨hne, hunswept⟩ := not_or.1 hnot
    have hg' := (graphCollapsed_hideAll hs hf hl).2 (Or.inr ((hhidden g).1 hg))
    refine hne (hsealed g hg' x hown ((codecVisible_hideAll hs hf hl).2 ⟨hx, fun hswept => ?_⟩))
    exact absurd hswept hunswept
  · obtain ⟨hx, hroot⟩ := (codecVisible_hideAll hs hf hl).1 hx
    rcases (graphCollapsed_hideAll hs hf hl).1 hg with hg | hg
    · exact h g hg x hown hx
    · rcases hcovers g ((hhidden g).2 hg) x hown hx with heq | hswept
      · exact heq
      · exact hroot ((hsweep x).1 hswept)

/-- Hiding a graph leaves it to stand in for its codecs if what is swept covers them. -/
theorem sealed_hideGraph_iff (h : s.Sealed f) (hs : s.Sound) (hf : s.Fits f)
    (hfirst : s.firstCodec g = .ok first) :
    s.Sealed (s.hideGraph f g first).1 ↔ s.Covers f (· = g) := by
  have hl : s.AtFirst [(g, first)] := fun p hp => by
    obtain rfl := List.mem_singleton.1 hp
    exact hfirst
  have hiff := sealed_hideAll_iff h hs hf hl
  simpa [hideAll] using hiff

theorem sealed_settleAll_true_iff (h : s.Sealed f) (hs : s.Sound) (hf : s.Fits f) :
    s.Sealed (s.settleAll true f gs).1 ↔ s.Covers f (· ∈ (s.settleAll true f gs).2) := by
  obtain ⟨l, hl, hdone, heq⟩ := exists_settleAll_eq_hideAll s f gs
  rw [heq, ← hdone]
  exact sealed_hideAll_iff h hs hf hl

/-! ## Showing one level -/

/-- Showing a level keeps graphs sealed if what it collapses and what it shows allow it. -/
theorem sealed_expandLevel_iff (h : s.Sealed f) (hs : s.Sound) (hf : s.Fits f) :
    s.Sealed (s.expandLevel f c).1 ↔ s.LevelSeals f c := by
  refine ⟨fun hsealed => ⟨fun g hg x hown hx => ?_, fun g hown hg x hchild hx => ?_⟩, ?_⟩
  · have hg' := (graphCollapsed_expandLevel hs hf).2 (Or.inr hg)
    exact hsealed g hg' x hown ((codecVisible_expandLevel hs hf).2 (Or.inl hx))
  · -- the child is shown, and it cannot be the root
    have hnear : s.Near c x := ⟨hchild, fun g' hg' => by
      rw [hown, ← hg', hx]⟩
    have hg' := (graphCollapsed_expandLevel (c := c) hs hf).2 (Or.inl hg)
    have hroot := hsealed g hg' x hx ((codecVisible_expandLevel hs hf).2 (Or.inr hnear))
    exact hs.ne_root_of_below (.single hchild) hroot
  · rintro ⟨hborders, hwithin⟩ g hg x hown hx
    rcases (codecVisible_expandLevel hs hf).1 hx with hx | ⟨hchild, hnear⟩
    · rcases (graphCollapsed_expandLevel hs hf).1 hg with hg | hg
      · exact h g hg x hown hx
      · exact hborders g hg x hown hx
    · -- a child that is shown has the owner of the codec, so the graph was not collapsed
      have hc := hnear g hown
      rcases (graphCollapsed_expandLevel hs hf).1 hg with hg | hg
      · exact absurd hown (hwithin g hc hg x hchild)
      · exact absurd hc hg.1

/-! ## Actions and runs -/

/-- After an action every collapsed graph stands in for its codecs exactly if the action is
    one that leaves it so. -/
theorem Sealed.apply_iff (h : s.Sealed f) (hs : s.Sound) (hf : s.Regular f) {a : Action}
    {r : Folding × List NodeId} (ha : s.apply f a = .ok r) : s.Sealed r.1 ↔ s.Seals f a := by
  cases step_of_apply ha with
  | collapseBelow _ _ => exact iff_of_true (h.collapseBelow hs _) trivial
  | expandBelow _ _ => exact iff_of_true (h.expandBelow hs hf.toFits _) trivial
  | collapseGraph _ _ => exact iff_of_true (h.collapseGraph hs _) trivial
  | expandGraph hfirst _ => exact iff_of_true (h.expandGraph hs hf.toFits hfirst) trivial
  | expandLevel _ => exact sealed_expandLevel_iff h hs hf.toFits
  | @hideGraph g _ hfirst hopen =>
    have hnot : ¬f.graphCollapsed g := Bool.eq_false_iff.1 hopen
    exact (sealed_hideGraph_iff h hs hf.toFits hfirst).trans (or_iff_right hnot).symm
  | restoreGraph hfirst hcollapsed =>
    exact iff_of_true (h.restoreGraph hs hf.toFits hfirst) (Or.inl hcollapsed)
  | standard collapse =>
    cases collapse with
    | true => exact sealed_settleAll_true_iff h hs hf.toFits
    | false => exact iff_of_true (h.settleAll_false hs hf _) trivial

/-- At the start, every collapsed graph stands in for its codecs exactly if the graphs that
    are collapsed there take all of them off the screen. -/
theorem sealed_start_iff (hs : s.Sound) : s.Sealed s.start ↔
    s.Covers (Folding.unfolded s.pipeline) (s.start.graphCollapsed ·) := by
  have hf := (Regular.unfolded hs).toFits
  have hsealed : s.Sealed (Folding.unfolded s.pipeline) := by
    intro g hg
    rw [graphCollapsed_unfolded] at hg
    cases hg
  obtain ⟨l, hl, heq⟩ := exists_start_eq_hideAll s
  have hhidden : (s.start.graphCollapsed · = true) = (· ∈ l.map Prod.fst) := by
    funext g
    rw [heq, graphCollapsed_hideAll hs hf hl, graphCollapsed_unfolded]
    simp [eq_comm]
  rw [hhidden, heq]
  exact sealed_hideAll_iff hsealed hs hf hl

/-- When the collapsed graphs of a scene stand in for their codecs. -/
structure SealedExactly (s : Scene) : Prop where
  start_iff : s.Sealed s.start ↔
    s.Covers (Folding.unfolded s.pipeline) (s.start.graphCollapsed ·)
  step_iff : ∀ f a f' nodes, s.Reachable f → s.Sealed f → s.apply f a = .ok (f', nodes) →
    (s.Sealed f' ↔ s.Seals f a)
  /-- Actions that leave it so lead to no other folding. -/
  run : s.Sealed s.start → ∀ f, s.ReachableBy s.Seals f → s.Sealed f

/-- In every scene that is built, a collapsed graph has no codec on screen but the root as
    long as the start and every action leave it so, and not any longer. -/
theorem sealedExactly_of_build {t : Trace} {settings : Settings}
    (hbuild : Scene.build t settings = .ok s) : s.SealedExactly := by
  have hs := sound_of_build hbuild
  have hstep : ∀ f a f' nodes, s.Reachable f → s.Sealed f → s.apply f a = .ok (f', nodes) →
      (s.Sealed f' ↔ s.Seals f a) := fun f a f' nodes hf hsealed ha =>
    hsealed.apply_iff hs (hf.regular hs) ha
  refine ⟨sealed_start_iff hs, hstep, fun hstart f hf => ?_⟩
  induction hf with
  | start => exact hstart
  | step hf hseals ha ih => exact (hstep _ _ _ _ hf.reachable ih ha).2 hseals

/-- Collapsing the first of the pairs leaves it to stand in for its codecs: of these only the
    root is still on screen. -/
theorem sealedExactly_pairs : ∃ s f, Scene.build pairs {} = .ok s ∧ s.ReachableBy s.Seals f ∧
    f = ⟨#[{}, { visible := false }, {}, {}], #[{ collapsed := true }, {}]⟩ ∧
    s.SealedExactly ∧ s.Sealed f := by
  have hrun : (Scene.build pairs {}).toOption.any (fun s =>
      (s.apply s.start (.toggle (.graph ⟨0⟩))).toOption.any fun r =>
        r.1 = ⟨#[{}, { visible := false }, {}, {}], #[{ collapsed := true }, {}]⟩) = true := by
    decide +kernel
  obtain ⟨s, hs, hrun⟩ := exists_of_any_toOption hrun
  obtain ⟨r, ha, hfolds⟩ := exists_of_any_toOption hrun
  obtain ⟨-, -, hsettings, -⟩ := build_eq_ok hs
  have hsealed : s.SealedExactly := sealedExactly_of_build hs
  -- nothing is collapsed at the start
  have hstart : s.Sealed s.start := by
    intro g hg
    rw [start_eq_unfolded (by rw [hsettings]), graphCollapsed_unfolded] at hg
    cases hg
  have hseals : s.Seals s.start (.toggle (.graph ⟨0⟩)) := trivial
  have hreach : s.ReachableBy s.Seals r.1 := .step .start hseals ha
  exact ⟨s, r.1, hs, hreach, of_decide_eq_true hfolds, hsealed, hsealed.run hstart _ hreach⟩

/-- Hiding the second of the pairs leaves the codec in front of its first one on screen,
    showing one level in front of it leaves both of its codecs there, and showing one level
    inside the first pair, while it is collapsed, brings one of its codecs on screen. -/
theorem exists_unsealed : ∃ s, Scene.build pairs {} = .ok s ∧
    (∃ f, applyAll s s.start [.hide ⟨1⟩] = .ok f ∧ s.Reachable f ∧ ¬s.Sealed f) ∧
    (∃ f, applyAll s s.start [.expand ⟨1⟩] = .ok f ∧ s.Reachable f ∧ ¬s.Sealed f) ∧
    ∃ f, applyAll s s.start [.toggle (.graph ⟨0⟩), .expand ⟨0⟩] = .ok f ∧ s.Reachable f ∧
      ¬s.Sealed f := by
  obtain ⟨s, hs⟩ := exists_build_pairs
  have hshown : ∀ (as : List Action) (g : GraphId) (x : CodecId), x ≠ .root →
      (Scene.build pairs {}).toOption.any (fun s => (applyAll s s.start as).toOption.any fun f =>
        s.pipeline.owner? x == some g && f.graphCollapsed g && f.codecVisible x) = true →
      ∃ f, applyAll s s.start as = .ok f ∧ s.Reachable f ∧ ¬s.Sealed f := by
    intro as g x hne hrun
    obtain ⟨f, hf, hreach, hq⟩ := exists_of_run (q := fun s f =>
      s.pipeline.owner? x == some g && f.graphCollapsed g && f.codecVisible x) hs hrun
    simp only [Bool.and_eq_true, beq_iff_eq] at hq
    obtain ⟨⟨hown, hg⟩, hx⟩ := hq
    exact ⟨f, hf, hreach, fun hsealed => hne (hsealed g hg x hown hx)⟩
  refine ⟨s, hs, hshown _ ⟨1⟩ ⟨2⟩ ?_ ?_, hshown _ ⟨1⟩ ⟨3⟩ ?_ ?_, hshown _ ⟨0⟩ ⟨1⟩ ?_ ?_⟩
  all_goals decide +kernel

end TraceFold.Scene
