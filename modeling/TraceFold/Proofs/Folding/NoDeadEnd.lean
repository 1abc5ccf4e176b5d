/-
  TraceFold.Proofs.Folding.NoDeadEnd

  Nothing gets stuck.  From every folding that can be reached, toggles of nodes on screen
  lead to one in which everything is on screen and nothing is collapsed (`Unfolded`).
  Toggling the root shows all that there is down to the collapsed codecs (`Exposed`).  If
  something is still collapsed, then so is a node on screen, and expanding it leaves fewer
  collapsed nodes (`Exposed.unfolded_or_fewer`).
-/

import TraceFold.Proofs.Folding.GraphEffect
import TraceFold.Proofs.Lists

namespace TraceFold.Scene

open Folding
open Relation (ReflTransGen)

variable {s : Scene} {f f' : Folding} {c x : CodecId} {g : GraphId} {n : NodeId}

/-! ## Toggling what is on screen -/

/-- A node that is on screen is toggled. -/
def Clicked (s : Scene) (f f' : Folding) : Prop :=
  ∃ n nodes, f.nodeVisible n ∧ s.apply f (.toggle n) = .ok (f', nodes)

/-- Every codec, and every graph that owns one, is on screen and not collapsed. -/
structure Unfolded (s : Scene) (f : Folding) : Prop where
  codecs : ∀ c : CodecId, c.index < s.pipeline.codecs.size → f.codec? c = some ⟨true, false⟩
  graphs : ∀ c g, s.pipeline.owner? c = some g → f.graph? g = some ⟨true, false⟩

theorem clicked_codec (hc : c.index < s.pipeline.codecs.size) (hvisible : f.codecVisible c) :
    s.Clicked f (s.toggleBelow f c).1 :=
  ⟨.codec c, (s.toggleBelow f c).2, hvisible, apply_toggle_codec hc⟩

/-- A graph that is on screen and collapsed can be expanded if it owns a codec. -/
theorem exists_clicked_graph (hs : s.Sound) (hown : s.pipeline.owner? x = some g)
    (hvisible : f.graphVisible g) (hcollapsed : f.graphCollapsed g) :
    ∃ first, s.Clicked f (s.expandGraph f g first).1 := by
  obtain ⟨first, hfirst, -⟩ := exists_firstCodec ((hs.lawful.mem_members x g).2 hown)
  exact ⟨first, .graph g, (s.expandGraph f g first).2, hvisible,
    apply_of_step (.expandGraph hfirst hcollapsed)⟩

/-! ## Collapsed nodes -/

/-- All nodes of a scene. -/
def nodes (s : Scene) : List NodeId :=
  s.pipeline.codecIds.map .codec ++ s.pipeline.graphIds.map .graph

theorem codec_mem_nodes : .codec c ∈ s.nodes ↔ c.index < s.pipeline.codecs.size := by
  obtain ⟨i⟩ := c
  simp [nodes, Pipeline.codecIds]

theorem graph_mem_nodes : .graph g ∈ s.nodes ↔ g.index < s.pipeline.graphs.size := by
  obtain ⟨i⟩ := g
  simp [nodes, Pipeline.graphIds]

/-- A folding collapses nothing that another one does not. -/
def Looser (f f' : Folding) : Prop :=
  ∀ n, f.nodeCollapsed n → f'.nodeCollapsed n

/-- How many nodes are collapsed. -/
def collapsedCount (s : Scene) (f : Folding) : Nat :=
  s.nodes.countP f.nodeCollapsed

theorem Looser.count_le (h : Looser f f') : s.collapsedCount f ≤ s.collapsedCount f' :=
  List.countP_mono_left fun n _ => h n

/-- If one node more is expanded, fewer nodes are collapsed. -/
theorem Looser.count_lt (h : Looser f f') (hn : n ∈ s.nodes) (hcollapsed : f'.nodeCollapsed n)
    (hopen : f.nodeCollapsed n = false) : s.collapsedCount f < s.collapsedCount f' :=
  countP_lt_countP (fun n _ => h n) hn hcollapsed hopen

theorem looser_expandBelow : Looser (s.expandBelow f c).1 f := by
  intro n hn
  cases n with
  | codec x => exact (codecCollapsed_expandBelow.1 hn).1
  | graph g => exact graphCollapsed_expandBelow.symm.trans hn

theorem looser_expandGraph : Looser (s.expandGraph f g c).1 f := by
  intro n hn
  cases n with
  | codec x => exact codecCollapsed_expandGraph.symm.trans hn
  | graph g' => exact (graphCollapsed_expandGraph.1 hn).1

theorem graphCollapsed_expandGraph_self :
    (s.expandGraph f g c).1.graphCollapsed g = false :=
  Bool.eq_false_iff.2 fun h => (graphCollapsed_expandGraph.1 h).2 rfl

/-! ## Showing all down to the collapsed codecs -/

/-- The root is expanded, and what is met on the way down to the collapsed codecs is on
    screen, except inside collapsed graphs. -/
structure Exposed (s : Scene) (f : Folding) : Prop where
  root_open : f.codecCollapsed .root = false
  codecs : ∀ x, s.Bared f .root x → f.codecVisible x
  graphs : ∀ g, s.OwnsMet f .root g → f.graphVisible g

/-- Expanding the root exposes all. -/
theorem exposed_expandBelow (hs : s.Sound) (h : s.Regular f) :
    s.Exposed (s.expandBelow f .root).1 where
  root_open := Bool.eq_false_iff.2 fun hroot => (codecCollapsed_expandBelow.1 hroot).2 rfl
  codecs x hx := by
    have hbared := (agreeBelow_expandBelow hs).bared.1 hx
    exact (codecVisible_expandBelow hs h.toFits).2 (Or.inr hbared)
  graphs g hg := by
    have hmet := (agreeBelow_expandBelow hs).ownsMet.1 hg
    exact (graphVisible_expandBelow hs h.toFits).2 (Or.inr hmet)

/-- The root is always on screen to be clicked. -/
theorem clicked_expandBelow_root (hs : s.Sound) (h : s.Regular f)
    (hroot : f.codecCollapsed .root) :
    s.Clicked f (s.expandBelow f .root).1 := by
  have hclick := clicked_codec hs.lawful.root_known h.root_visible
  rwa [toggleBelow, if_pos hroot] at hclick

/-- Toggling the root once or twice exposes all and collapses nothing else. -/
theorem exists_exposed (hs : s.Sound) (h : s.Regular f) :
    ∃ f', ReflTransGen s.Clicked f f' ∧ s.Regular f' ∧ s.Exposed f' ∧ Looser f' f := by
  have hknown := hs.lawful.root_known
  by_cases hroot : f.codecCollapsed .root
  · exact ⟨_, .single (clicked_expandBelow_root hs h hroot), h.expandBelow .root,
      exposed_expandBelow hs h, looser_expandBelow⟩
  · -- the root is collapsed first; its own flag is then the only one that changes twice
    have hcollapse := clicked_codec hknown h.root_visible
    rw [toggleBelow, if_neg hroot] at hcollapse
    have hmid := h.collapseBelow hs .root
    have hmidroot := (codecCollapsed_collapseBelow h.toFits hknown).2 (Or.inr rfl)
    refine ⟨_, .tail (.single hcollapse) (clicked_expandBelow_root hs hmid hmidroot),
      hmid.expandBelow .root, exposed_expandBelow hs hmid, ?_⟩
    intro n hn
    cases n with
    | codec x =>
      obtain ⟨hx, hne⟩ := codecCollapsed_expandBelow.1 hn
      exact ((codecCollapsed_collapseBelow h.toFits hknown).1 hx).resolve_right hne
    | graph g =>
      exact (graphCollapsed_expandBelow.trans graphCollapsed_collapseBelow).symm.trans hn

/-! ## Something on screen can be expanded -/

/-- If a codec is collapsed, then so is one that is met on the way down from the root. -/
theorem Exposed.exists_met_collapsed (h : s.Exposed f) (hs : s.Sound)
    (hc : c.index < s.pipeline.codecs.size) (hcollapsed : f.codecCollapsed c) :
    ∃ u, s.Met f .stopAtCollapsed .root u ∧ f.codecCollapsed u := by
  have hroot : c ≠ .root := by
    rintro rfl
    rw [h.root_open] at hcollapsed
    cases hcollapsed
  rcases (hs.below_root hc hroot).met_or_stop (f := f) with hmet | hstop
  · exact ⟨c, hmet, hcollapsed⟩
  · exact hstop

/-- If no codec is collapsed, every codec but the root is met. -/
theorem met_of_none_collapsed (hs : s.Sound)
    (hnone : ∀ u : CodecId, u.index < s.pipeline.codecs.size → f.codecCollapsed u = false)
    (hc : c.index < s.pipeline.codecs.size) (hroot : c ≠ .root) :
    s.Met f .stopAtCollapsed .root c := by
  refine ((hs.below_root hc hroot).met_or_stop).resolve_right ?_
  rintro ⟨u, hu, hcollapsed⟩
  rw [hnone u (hs.below_known hu.below_start)] at hcollapsed
  cases hcollapsed

/-- Expanding a graph that is on screen leaves fewer collapsed nodes. -/
theorem exists_fewer_of_graph (hs : s.Sound) (h : s.Regular f)
    (hown : s.pipeline.owner? x = some g) (hvisible : f.graphVisible g)
    (hcollapsed : f.graphCollapsed g) :
    ∃ f', s.Clicked f f' ∧ s.Regular f' ∧ s.collapsedCount f' < s.collapsedCount f := by
  obtain ⟨first, hclick⟩ := exists_clicked_graph hs hown hvisible hcollapsed
  refine ⟨_, hclick, h.expandGraph g first, ?_⟩
  exact looser_expandGraph.count_lt (graph_mem_nodes.2 (hs.graph_lt hown)) hcollapsed
    graphCollapsed_expandGraph_self

/-- Expanding a codec that is met on the way down, or the collapsed graph that it is
    inside of, leaves fewer collapsed nodes. -/
theorem Exposed.exists_fewer_of_codec (hx : s.Exposed f) (hs : s.Sound) (h : s.Regular f)
    (hmet : s.Met f .stopAtCollapsed .root c) (hcollapsed : f.codecCollapsed c) :
    ∃ f', s.Clicked f f' ∧ s.Regular f' ∧ s.collapsedCount f' < s.collapsedCount f := by
  have hc := hs.below_known hmet.below_start
  by_cases hgraph : ∃ g, s.pipeline.owner? c = some g ∧ f.graphCollapsed g
  · -- the codec itself may be hidden in its graph, but then the graph is on screen
    obtain ⟨g, hown, hg⟩ := hgraph
    exact exists_fewer_of_graph hs h hown (hx.graphs g ⟨c, hmet, hown⟩) hg
  · have hbared : s.Bared f .root c :=
      ⟨hmet, fun g hown => Bool.eq_false_iff.2 fun hg => hgraph ⟨g, hown, hg⟩⟩
    have hclick := clicked_codec hc (hx.codecs c hbared)
    rw [toggleBelow, if_pos hcollapsed] at hclick
    refine ⟨_, hclick, h.expandBelow c, ?_⟩
    have hopen : (s.expandBelow f c).1.codecCollapsed c = false :=
      Bool.eq_false_iff.2 fun hc' => (codecCollapsed_expandBelow.1 hc').2 rfl
    exact looser_expandBelow.count_lt (codec_mem_nodes.2 hc) hcollapsed hopen

/-- If no codec is collapsed, every graph that owns one is on screen. -/
theorem Exposed.graphVisible (hx : s.Exposed f) (hs : s.Sound) (h : s.Regular f)
    (hnone : ∀ u : CodecId, u.index < s.pipeline.codecs.size → f.codecCollapsed u = false)
    (hown : s.pipeline.owner? c = some g) : f.graphVisible g := by
  by_contra hhidden
  -- what hides a graph is a codec below the root, which would show the graph again
  obtain ⟨u, hu, hroot⟩ := h.hidden_graph g (hs.graph_lt hown) (by simpa using hhidden)
  have hknown : u.index < s.pipeline.codecs.size := codec_lt_of_owner? hu
  exact hhidden (hx.graphs g ⟨u, met_of_none_collapsed hs hnone hknown hroot, hu⟩)

theorem codec?_eq_of_visible_of_open (hvisible : f.codecVisible c)
    (hopen : f.codecCollapsed c = false) : f.codec? c = some ⟨true, false⟩ := by
  unfold codecVisible at hvisible
  unfold codecCollapsed at hopen
  cases hfold : f.codec? c with
  | none => simp [hfold] at hvisible
  | some fold =>
    obtain ⟨visible, collapsed⟩ := fold
    simp only [hfold, Option.any_some] at hvisible hopen
    rw [hvisible, hopen]

theorem graph?_eq_of_visible_of_open (hvisible : f.graphVisible g)
    (hopen : f.graphCollapsed g = false) : f.graph? g = some ⟨true, false⟩ := by
  unfold Folding.graphVisible at hvisible
  unfold graphCollapsed at hopen
  cases hfold : f.graph? g with
  | none => simp [hfold] at hvisible
  | some fold =>
    obtain ⟨visible, collapsed⟩ := fold
    simp only [hfold, Option.any_some] at hvisible hopen
    rw [hvisible, hopen]

/-- If all is exposed, either nothing is left to expand or something on screen is. -/
theorem Exposed.unfolded_or_fewer (hx : s.Exposed f) (hs : s.Sound) (h : s.Regular f) :
    s.Unfolded f ∨
      ∃ f', s.Clicked f f' ∧ s.Regular f' ∧ s.collapsedCount f' < s.collapsedCount f := by
  by_cases hcodec : ∃ c : CodecId, c.index < s.pipeline.codecs.size ∧ f.codecCollapsed c
  · -- a codec is collapsed: on the way down to it lies the first that is
    obtain ⟨c, hc, hcollapsed⟩ := hcodec
    obtain ⟨u, hmet, hu⟩ := hx.exists_met_collapsed hs hc hcollapsed
    exact Or.inr (hx.exists_fewer_of_codec hs h hmet hu)
  · have hnone : ∀ u : CodecId, u.index < s.pipeline.codecs.size → f.codecCollapsed u = false :=
      fun u hu => Bool.eq_false_iff.2 fun hcollapsed => hcodec ⟨u, hu, hcollapsed⟩
    by_cases hgraph : ∃ c g, s.pipeline.owner? c = some g ∧ f.graphCollapsed g
    · -- only graphs are collapsed, and all of them are on screen
      obtain ⟨c, g, hown, hg⟩ := hgraph
      exact Or.inr (exists_fewer_of_graph hs h hown (hx.graphVisible hs h hnone hown) hg)
    · have hopen : ∀ c g, s.pipeline.owner? c = some g → f.graphCollapsed g = false :=
        fun c g hown => Bool.eq_false_iff.2 fun hg => hgraph ⟨c, g, hown, hg⟩
      refine Or.inl ⟨fun c hc => codec?_eq_of_visible_of_open ?_ (hnone c hc), fun c g hown =>
        graph?_eq_of_visible_of_open (hx.graphVisible hs h hnone hown) (hopen c g hown)⟩
      by_cases hroot : c = .root
      · exact hroot ▸ h.root_visible
      · exact hx.codecs c ⟨met_of_none_collapsed hs hnone hc hroot, hopen c⟩

/-! ## Unfolding everything -/

/-- From every regular folding, clicks on what is on screen expand everything. -/
theorem Regular.exists_run_unfolded (h : s.Regular f) (hs : s.Sound) :
    ∃ f', ReflTransGen s.Clicked f f' ∧ s.Unfolded f' := by
  induction hcount : s.collapsedCount f using Nat.strongRecOn generalizing f with
  | _ count ih =>
    -- expose all, expand one node, and go on with fewer collapsed nodes
    obtain ⟨f₁, hrun₁, h₁, hx, hlooser⟩ := exists_exposed hs h
    have hle : s.collapsedCount f₁ ≤ count := hcount ▸ hlooser.count_le
    rcases hx.unfolded_or_fewer hs h₁ with hdone | ⟨f₂, hclick, h₂, hlt⟩
    · exact ⟨f₁, hrun₁, hdone⟩
    · obtain ⟨f₃, hrun₃, hdone⟩ := ih _ (hlt.trans_le hle) h₂ rfl
      exact ⟨f₃, (hrun₁.tail hclick).trans hrun₃, hdone⟩

/-- From every folding that can be reached, toggles of nodes on screen lead to one in
    which every codec, and every graph that owns one, is on screen and not collapsed. -/
theorem exists_unfolding {t : Trace} {settings : Settings}
    (hbuild : Scene.build t settings = .ok s) (hf : s.Reachable f) :
    ∃ f', ReflTransGen s.Clicked f f' ∧ s.Unfolded f' := by
  have hs := sound_of_build hbuild
  exact (hf.regular hs).exists_run_unfolded hs

/-- With the codec of a graph collapsed, all can be unfolded again. -/
theorem unfolding_diamond : ∃ s f, Scene.build diamond {} = .ok s ∧ s.Reachable f ∧
    f = (s.toggleBelow s.start ⟨1⟩).1 ∧
    ∃ f', ReflTransGen s.Clicked f f' ∧ s.Unfolded f' := by
  obtain ⟨s, hs⟩ := exists_build_diamond
  have hknown : 1 < s.pipeline.codecs.size := by
    rw [size_codecs_of_build hs]
    decide
  have hf : s.Reachable (s.toggleBelow s.start ⟨1⟩).1 := Reachable.start.toggleBelow hknown
  exact ⟨s, _, hs, hf, rfl, exists_unfolding hs hf⟩

end TraceFold.Scene
