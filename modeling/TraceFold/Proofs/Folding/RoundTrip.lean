/-
  TraceFold.Proofs.Folding.RoundTrip

  Toggles of a graph that are done twice.  Collapsing goes by the codecs that the graph
  owns, and expanding by paths inside the graph from its first codec on (`InnerPath`).  So
  the second toggle of a graph that was not collapsed gives back all folds exactly if its
  codecs on screen were those that such paths lead to (`OpenedUp`).  Hiding goes below the
  first codec, and so does restoring if that is collapsed; while nothing has been folded,
  the one gives back what the other has taken (`restoreGraph_hideGraph`).
-/

import TraceFold.Proofs.Folding.GraphEffect
import TraceFold.Proofs.Folding.Undo

namespace TraceFold.Scene

open Folding
open Dag (Child)

variable {s : Scene} {f f' f₁ f₂ : Folding} {c x first : CodecId} {g : GraphId}

/-- To add something that was not there and to take it away again changes nothing. -/
theorem or_eq_and_ne_iff {α : Type} {p : α → Bool} {a b : α} (ha : p a = false) :
    (p b ∨ b = a) ∧ b ≠ a ↔ p b := by
  refine ⟨fun ⟨hor, hne⟩ => hor.resolve_right hne, fun hb => ⟨Or.inl hb, ?_⟩⟩
  rintro rfl
  exact Bool.false_ne_true (ha.symm.trans hb)

/-! ## Paths inside a graph -/

/-- A path leads from a codec to another one inside a graph: the graph owns every codec on
    it, and no codec in between is collapsed. -/
def InnerPath (s : Scene) (f : Folding) (g : GraphId) (c x : CodecId) : Prop :=
  ∃ inner : List CodecId, (c :: (inner ++ [x])).IsChain (Child s.dag.children) ∧
    (∀ u ∈ c :: (inner ++ [x]), s.pipeline.owner? u = some g) ∧
    ∀ u ∈ inner, f.codecCollapsed u = false

theorem met_within_iff_innerPath (hc : s.pipeline.owner? c = some g) :
    s.Met f (.within g) c x ↔ s.InnerPath f g c x := by
  simp only [met_iff_exists_path, InnerPath, goesOn, meets, Bool.not_eq_true', beq_iff_eq,
    List.forall_mem_cons, hc, true_and, and_comm]

/-- Of a folding, only which codecs are collapsed matters to a path. -/
theorem InnerPath.congr (h : ∀ u, f'.codecCollapsed u = f.codecCollapsed u) :
    s.InnerPath f' g c x ↔ s.InnerPath f g c x := by
  simp only [InnerPath, h]

/-- The codecs that expanding a graph shows: the first one and, unless that is collapsed, what
    paths inside the graph lead to from it. -/
def ShownAgain (s : Scene) (f : Folding) (g : GraphId) (first x : CodecId) : Prop :=
  x = first ∨ f.codecCollapsed first = false ∧ s.InnerPath f g first x

theorem opened_iff_shownAgain (hs : s.Sound) (hfirst : s.firstCodec g = .ok first) :
    s.Opened f g first x ↔ s.ShownAgain f g first x := by
  rw [Opened, ShownAgain, met_within_iff_innerPath (hs.owner?_first hfirst)]

/-! ## Toggling a graph -/

/-- What collapsing a graph leaves behind. -/
structure CollapsesGraph (s : Scene) (f : Folding) (g : GraphId) (f' : Folding) : Prop where
  graphCollapsed_iff : ∀ h, f'.graphCollapsed h ↔ f.graphCollapsed h ∨ h = g
  /-- All codecs of the graph go, but not the root. -/
  codecVisible_iff : ∀ x, f'.codecVisible x ↔
    f.codecVisible x ∧ ¬(x ∈ s.pipeline.members g ∧ x ≠ .root)
  codecCollapsed_eq : ∀ x, f'.codecCollapsed x = f.codecCollapsed x
  graphVisible_eq : ∀ h, f'.graphVisible h = f.graphVisible h

/-- What expanding a graph from a codec on leaves behind. -/
structure ExpandsGraph (s : Scene) (f : Folding) (g : GraphId) (first : CodecId)
    (f' : Folding) : Prop where
  graphCollapsed_iff : ∀ h, f'.graphCollapsed h ↔ f.graphCollapsed h ∧ h ≠ g
  codecVisible_iff : ∀ x, f'.codecVisible x ↔ f.codecVisible x ∨ s.ShownAgain f g first x
  codecCollapsed_eq : ∀ x, f'.codecCollapsed x = f.codecCollapsed x
  graphVisible_eq : ∀ h, f'.graphVisible h = f.graphVisible h

theorem collapsesGraph_collapseGraph (hs : s.Sound) (hf : s.Fits f)
    (hg : g.index < s.pipeline.graphs.size) : s.CollapsesGraph f g (s.collapseGraph f g).1 where
  graphCollapsed_iff h := by
    have hknown : h = g → h.index < f.graphs.size := by
      rintro rfl
      rwa [hf.size_graphs]
    rw [graphCollapsed_collapseGraph, and_iff_left_of_imp hknown]
  codecVisible_iff x := by
    rw [codecVisible_collapseGraph hs, hs.lawful.mem_members, not_and_not_right]
  codecCollapsed_eq x := codecCollapsed_collapseGraph
  graphVisible_eq h := graphVisible_collapseGraph

theorem expandsGraph_expandGraph (hs : s.Sound) (hf : s.Fits f)
    (hfirst : s.firstCodec g = .ok first) :
    s.ExpandsGraph f g first (s.expandGraph f g first).1 where
  graphCollapsed_iff h := graphCollapsed_expandGraph
  codecVisible_iff x := by
    rw [codecVisible_expandGraph hs hf hfirst, opened_iff_shownAgain hs hfirst]
  codecCollapsed_eq x := codecCollapsed_expandGraph
  graphVisible_eq h := graphVisible_expandGraph

/-- Of the codecs of a graph, those on screen are the ones that expanding the graph shows.
    The root does not count, as collapsing the graph leaves it on screen. -/
def OpenedUp (s : Scene) (f : Folding) (g : GraphId) (first : CodecId) : Prop :=
  ∀ x ∈ s.pipeline.members g, x ≠ .root → (f.codecVisible x ↔ s.ShownAgain f g first x)

/-- Collapsing a graph and expanding it again changes nothing exactly if its codecs on screen
    are those that are shown again. -/
theorem ExpandsGraph.eq_iff (h₂ : s.ExpandsGraph f₁ g first f₂) (h₁ : s.CollapsesGraph f g f₁)
    (hs : s.Sound) (hf : s.Regular f) (hf₂ : s.Fits f₂) (hfirst : s.firstCodec g = .ok first)
    (hopen : f.graphCollapsed g = false) : f₂ = f ↔ s.OpenedUp f g first := by
  have hown : ∀ x, s.ShownAgain f g first x → x ∈ s.pipeline.members g := fun x hx =>
    (hs.lawful.mem_members x g).2 (((opened_iff_shownAgain hs hfirst).2 hx).owner? hs hfirst)
  have hvisible : ∀ x, f₂.codecVisible x ↔
      f.codecVisible x ∧ ¬(x ∈ s.pipeline.members g ∧ x ≠ .root) ∨
        s.ShownAgain f g first x := fun x => by
    rw [h₂.codecVisible_iff, h₁.codecVisible_iff, ShownAgain, ShownAgain, h₁.codecCollapsed_eq,
      InnerPath.congr h₁.codecCollapsed_eq]
  refine ⟨?_, fun hup => hf₂.eq_of_flags hf.toFits (fun x => ?_) (fun x => ?_) (fun h => ?_)
    fun h => ?_⟩
  · rintro rfl x hx hne
    rw [hvisible]
    exact or_iff_right fun hkept => hkept.2 ⟨hx, hne⟩
  · rw [hvisible]
    by_cases hx : x ∈ s.pipeline.members g
    · by_cases hroot : x = .root
      · -- the root has stayed on screen all the time
        subst hroot
        exact iff_of_true (Or.inl ⟨hf.root_visible, fun hgone => hgone.2 rfl⟩) hf.root_visible
      · rw [hup x hx hroot]
        exact or_iff_right fun hkept => hkept.2 ⟨hx, hroot⟩
    · rw [or_iff_left fun hshown => hx (hown x hshown)]
      exact and_iff_left fun hgone => hx hgone.1
  · rw [h₂.codecCollapsed_eq, h₁.codecCollapsed_eq]
  · rw [h₂.graphVisible_eq, h₁.graphVisible_eq]
  · rw [h₂.graphCollapsed_iff, h₁.graphCollapsed_iff]
    exact or_eq_and_ne_iff hopen

/-- Toggling a graph that owns a codec collapses it, or expands it from its first codec on; of
    a graph that is not collapsed, two toggles give back the folding exactly if its codecs on
    screen are those that the second one shows. -/
theorem toggle_graph_effect {t : Trace} {settings : Settings}
    (hbuild : Scene.build t settings = .ok s) (hreach : s.Reachable f)
    (hx : x ∈ s.pipeline.members g) : ∃ first f' nodes,
      (s.pipeline.members g).head? = some first ∧
      s.apply f (.toggle (.graph g)) = .ok (f', nodes) ∧
      (f.graphCollapsed g → s.ExpandsGraph f g first f') ∧
      (f.graphCollapsed g = false → s.CollapsesGraph f g f' ∧ ∃ f'' nodes',
        s.apply f' (.toggle (.graph g)) = .ok (f'', nodes') ∧
          (f'' = f ↔ s.OpenedUp f g first)) := by
  have hs := sound_of_build hbuild
  have hf := hreach.regular hs
  obtain ⟨first, hfirst, hhead⟩ := exists_firstCodec hx
  have hg : g.index < s.pipeline.graphs.size := hs.graph_lt (hs.owner?_first hfirst)
  cases hcollapsed : f.graphCollapsed g with
  | true =>
    refine ⟨first, _, _, hhead, apply_of_step (.expandGraph hfirst hcollapsed), fun _ => ?_, nofun⟩
    exact expandsGraph_expandGraph hs hf.toFits hfirst
  | false =>
    have h₁ := collapsesGraph_collapseGraph hs hf.toFits hg
    have hf₁ := hf.toFits.collapseGraph g
    have hcollapsed₁ : (s.collapseGraph f g).1.graphCollapsed g :=
      (h₁.graphCollapsed_iff g).2 (Or.inr rfl)
    refine ⟨first, _, _, hhead, apply_of_step (.collapseGraph hg hcollapsed), nofun, fun _ =>
      ⟨h₁, _, _, apply_of_step (.expandGraph hfirst hcollapsed₁), ?_⟩⟩
    exact (expandsGraph_expandGraph hs hf₁ hfirst).eq_iff h₁ hs hf (hf₁.expandGraph g first) hfirst
      hcollapsed

/-- A graph that lists its last codec first does not get the other one back, as no path leads
    there. -/
theorem toggle_graph_effect_pairs : ∃ s f' f'' nodes nodes', Scene.build pairs {} = .ok s ∧
    s.Reachable s.start ∧ s.pipeline.members ⟨1⟩ = [⟨3⟩, ⟨2⟩] ∧
    s.start.graphCollapsed ⟨1⟩ = false ∧
    s.apply s.start (.toggle (.graph ⟨1⟩)) = .ok (f', nodes) ∧ s.CollapsesGraph s.start ⟨1⟩ f' ∧
    s.apply f' (.toggle (.graph ⟨1⟩)) = .ok (f'', nodes') ∧
    (f'' = s.start ↔ s.OpenedUp s.start ⟨1⟩ ⟨3⟩) ∧
    s.start.codecVisible ⟨2⟩ = true ∧ f''.codecVisible ⟨2⟩ = false := by
  have hrun : (Scene.build pairs {}).toOption.any (fun s =>
      s.pipeline.members ⟨1⟩ = [⟨3⟩, ⟨2⟩] && !s.start.graphCollapsed ⟨1⟩ &&
        (s.apply s.start (.toggle (.graph ⟨1⟩))).toOption.any fun r =>
          (s.apply r.1 (.toggle (.graph ⟨1⟩))).toOption.any fun r' =>
            s.start.codecVisible ⟨2⟩ && !r'.1.codecVisible ⟨2⟩) = true := by
    decide +kernel
  obtain ⟨s, hs, hq⟩ := exists_of_any_toOption hrun
  simp only [Bool.and_eq_true, decide_eq_true_eq, Bool.not_eq_true'] at hq
  obtain ⟨⟨hmembers, hopen⟩, htoggles⟩ := hq
  obtain ⟨r, hr, hsecond⟩ := exists_of_any_toOption htoggles
  obtain ⟨r', hr', hscreen⟩ := exists_of_any_toOption hsecond
  simp only [Bool.and_eq_true, Bool.not_eq_true'] at hscreen
  have hmem : (⟨2⟩ : CodecId) ∈ s.pipeline.members ⟨1⟩ := by simp [hmembers]
  obtain ⟨first, f', nodes, hfirst, hcollapse, -, hback⟩ := toggle_graph_effect hs .start hmem
  obtain ⟨hleft, f'', nodes', hexpand, hiff⟩ := hback hopen
  obtain rfl : ⟨3⟩ = first := by simpa [hmembers] using hfirst
  obtain rfl := Except.ok.inj (hr.symm.trans hcollapse)
  obtain rfl := Except.ok.inj (hr'.symm.trans hexpand)
  exact ⟨s, f', f'', nodes, nodes', hs, .start, hmembers, hopen, hcollapse, hleft, hexpand, hiff,
    hscreen⟩

/-! ## Hiding a graph and restoring it -/

section Hidden

variable (hs : s.Sound) (hf : s.Fits f) (hfirst : s.firstCodec g = .ok first)
  (hg : f.graphCollapsed g = false)
include hs hf hfirst hg

/-- Hiding a graph leaves everything below its first codec collapsed or not as it was, and so
    it does with all other graphs. -/
theorem agreeBelow_unveil_hideGraph :
    s.AgreeBelow first (unveil (s.hideGraph f g first).1 g) f where
  codecs u hu := by
    rw [codecCollapsed_unveil, Bool.eq_iff_iff, codecCollapsed_hideGraph hf (hs.first_known hfirst)]
    exact or_iff_left (hs.ne_of_below hu)
  graphs h := by
    rw [Bool.eq_iff_iff, graphCollapsed_unveil, graphCollapsed_hideGraph_of_first hs hf hfirst]
    exact or_eq_and_ne_iff hg

/-- Hiding a graph and restoring it changes nothing if the graph and its first codec are on
    screen and expanded, and below that codec the nodes on screen are those that expanding it
    would show. -/
theorem restoreGraph_hideGraph (hopen : f.codecCollapsed first = false)
    (hgraph : f.graphVisible g) (hcodec : f.codecVisible first) (hspread : s.Spread f first) :
    (s.restoreGraph (s.hideGraph f g first).1 g first).1 = f := by
  have hf₁ : s.Fits (s.hideGraph f g first).1 := hf.hideGraph g first
  have hcollapsed : (s.hideGraph f g first).1.codecCollapsed first :=
    (codecCollapsed_hideGraph hf (hs.first_known hfirst)).2 (Or.inr rfl)
  have hagree := agreeBelow_unveil_hideGraph hs hf hfirst hg
  refine (hf₁.restoreGraph g first).eq_of_flags hf (fun x => ?_) (fun x => ?_) (fun h => ?_)
    fun h => ?_
  · rw [codecVisible_restoreGraph hs hf₁ hfirst, Restored, if_pos hcollapsed, hagree.bared,
      codecVisible_hideGraph hs]
    refine ⟨?_, fun hx => ?_⟩
    · rintro (⟨hx, -⟩ | rfl | hx)
      · exact hx
      · exact hcodec
      · exact (hspread.codecs x hx.1.below_start).2 hx
    · -- what has been taken off is the first codec, or below it and shown again
      by_cases hswept : s.Swept f first x
      · rcases hswept with heq | ⟨-, hbelow⟩
        · exact Or.inr (Or.inl heq)
        · exact Or.inr (Or.inr ((hspread.codecs x hbelow).1 hx))
      · exact Or.inl ⟨hx, fun hswept' => absurd hswept' hswept⟩
  · rw [codecCollapsed_restoreGraph_of_collapsed hcollapsed,
      codecCollapsed_hideGraph hf (hs.first_known hfirst)]
    exact or_eq_and_ne_iff hopen
  · have hmet : s.OwnsMet (s.hideGraph f g first).1 first h ↔ s.OwnsMet f first h := by
      rw [← hagree.ownsMet]
      simp only [OwnsMet, met_unveil]
    rw [graphVisible_restoreGraph hs hf₁ hfirst, and_iff_right hcollapsed, hmet,
      graphVisible_hideGraph hs]
    refine ⟨?_, fun hh => ?_⟩
    · rintro ((⟨hh, -⟩ | rfl) | hh)
      · exact hh
      · exact hgraph
      · exact hspread.graphs_met h hh
    · by_cases howns : s.OwnsMet f first h
      · exact Or.inr howns
      · -- a graph that is not shown again has been kept
        refine Or.inl (Or.inl ⟨hh, fun _ hbelow => ?_⟩)
        exact (hspread.graphs_kept h hbelow hh).resolve_left howns
  · rw [graphCollapsed_restoreGraph, graphCollapsed_hideGraph_of_first hs hf hfirst]
    exact or_eq_and_ne_iff hg

end Hidden

theorem restoreGraph_nodes_getLast? :
    (s.restoreGraph f g first).2.getLast? = some (.graph g) := by
  simp [restoreGraph]

/-- What is folded once a graph has been hidden while nothing else was.  The graph and its first
    codec are collapsed.  This codec is hidden if it is not the root, and so is all below it,
    also graphs that own nothing else. -/
structure HiddenAlone (s : Scene) (g : GraphId) (first : CodecId) (f : Folding) : Prop where
  codecVisible_iff : ∀ x, x.index < s.pipeline.codecs.size →
    (f.codecVisible x ↔ (x = first ∨ s.Below first x → x = .root))
  codecCollapsed_iff : ∀ x, f.codecCollapsed x ↔ x = first
  graphVisible_iff : ∀ h, h.index < s.pipeline.graphs.size → (f.graphVisible h ↔
    (s.OwnsBelow first h → ∃ x, s.pipeline.owner? x = some h ∧ ¬s.Below first x))
  graphCollapsed_iff : ∀ h, f.graphCollapsed h ↔ h = g

theorem hiddenAlone_hideGraph (hs : s.Sound) (hfirst : s.firstCodec g = .ok first) :
    s.HiddenAlone g first (s.hideGraph (Folding.unfolded s.pipeline) g first).1 := by
  have hf : s.Fits (Folding.unfolded s.pipeline) := (Regular.unfolded hs).toFits
  refine ⟨fun x hx => ?_, fun x => ?_, fun h hh => ?_, fun h => ?_⟩
  · rw [codecVisible_hideGraph hs, codecVisible_unfolded, and_iff_right hx, Swept,
      and_iff_right codecCollapsed_unfolded]
  · rw [codecCollapsed_hideGraph hf (hs.first_known hfirst), codecCollapsed_unfolded]
    simp
  · -- every codec is on screen before, so only where it is decides
    have hvisible : ∀ x, s.pipeline.owner? x = some h →
        (Folding.unfolded s.pipeline).codecVisible x := fun x hown =>
      codecVisible_unfolded.2 (codec_lt_of_owner? hown)
    rw [graphVisible_hideGraph hs, graphVisible_unfolded, and_iff_right hh, Kept]
    simp only [codecCollapsed_unfolded, graphCollapsed_unfolded, true_and, forall_const]
    refine imp_congr_right fun _ => exists_congr fun x => and_congr_right fun hown => ?_
    exact and_iff_right (hvisible x hown)
  · rw [graphCollapsed_hideGraph_of_first hs hf hfirst, graphCollapsed_unfolded]
    simp

/-- If the standard graphs do not start collapsed, hiding any graph at the start folds it and
    what is below its first codec, restoring it gives back the start, and the graph is the
    last node to look at then. -/
theorem hide_twice_start {t : Trace} {settings : Settings}
    (hbuild : Scene.build t settings = .ok s) (hoff : settings.collapseStandardGraphs = false)
    (hx : x ∈ s.pipeline.members g) : ∃ first f' nodes nodes', s.firstCodec g = .ok first ∧
      s.apply s.start (.hide g) = .ok (f', nodes) ∧ s.HiddenAlone g first f' ∧
      s.apply f' (.hide g) = .ok (s.start, nodes') ∧ nodes'.getLast? = some (.graph g) := by
  have hs := sound_of_build hbuild
  obtain ⟨-, -, rfl, -⟩ := build_eq_ok hbuild
  rw [start_eq_unfolded hoff]
  have hf : s.Regular (Folding.unfolded s.pipeline) := .unfolded hs
  obtain ⟨first, hfirst, -⟩ := exists_firstCodec hx
  have hg : g.index < s.pipeline.graphs.size := hs.graph_lt (hs.owner?_first hfirst)
  have hspread : s.Spread (Folding.unfolded s.pipeline) first := by
    have hundo := undoable_unfolded (c := first) hs
    rwa [Undoable, if_neg (by simp)] at hundo
  have hrestored := restoreGraph_hideGraph hs hf.toFits hfirst graphCollapsed_unfolded
    codecCollapsed_unfolded (graphVisible_unfolded.2 hg)
    (codecVisible_unfolded.2 (hs.first_known hfirst)) hspread
  have hhidden := hiddenAlone_hideGraph hs hfirst
  have hback := apply_of_step (.restoreGraph hfirst ((hhidden.graphCollapsed_iff g).2 rfl))
  exact ⟨first, _, _, _, hfirst, apply_of_step (.hideGraph hfirst graphCollapsed_unfolded), hhidden,
    hback.trans (congrArg Except.ok (Prod.ext hrestored rfl)), restoreGraph_nodes_getLast?⟩

/-- Of the second of the pairs, only the codec that it lists first is hidden and comes back. -/
theorem hide_twice_start_pairs : ∃ s f' nodes nodes', Scene.build pairs {} = .ok s ∧
    (⟨2⟩ : CodecId) ∈ s.pipeline.members ⟨1⟩ ∧
    s.apply s.start (.hide ⟨1⟩) = .ok (f', nodes) ∧
    f' = ⟨#[{}, {}, {}, { visible := false, collapsed := true }], #[{}, { collapsed := true }]⟩ ∧
    s.HiddenAlone ⟨1⟩ ⟨3⟩ f' ∧
    s.apply f' (.hide ⟨1⟩) = .ok (s.start, nodes') ∧
    nodes'.getLast? = some (.graph ⟨1⟩) := by
  have hrun : (Scene.build pairs {}).toOption.any (fun s =>
      (⟨2⟩ : CodecId) ∈ s.pipeline.members ⟨1⟩ && s.firstCodec ⟨1⟩ = .ok ⟨3⟩ &&
      (s.apply s.start (.hide ⟨1⟩)).toOption.any fun r => r.1 = ⟨
        #[{}, {}, {}, { visible := false, collapsed := true }], #[{}, { collapsed := true }]⟩) := by
    decide +kernel
  obtain ⟨s, hs, hq⟩ := exists_of_any_toOption hrun
  simp only [Bool.and_eq_true, decide_eq_true_eq] at hq
  obtain ⟨⟨hmem, hfirst⟩, hq⟩ := hq
  obtain ⟨r, hr, hfolds⟩ := exists_of_any_toOption hq
  obtain ⟨first, f', nodes, nodes', hfirst', hhide, hhidden, hback⟩ := hide_twice_start hs rfl hmem
  obtain rfl := Except.ok.inj (hfirst.symm.trans hfirst')
  obtain rfl := Except.ok.inj (hr.symm.trans hhide)
  exact ⟨s, f', nodes, nodes', hs, hmem, hhide, of_decide_eq_true hfolds, hhidden, hback⟩

end TraceFold.Scene
