/-
  TraceFold.Proofs.Folding.GraphEffect

  What the toggles of graphs, and showing one level, do to every node.  Each toggle has
  one lemma for each kind of fold that it changes, and nothing below unfolds it again.
  A graph that is collapsed takes all its codecs off the screen only if that is what was
  asked for: hiding it takes off what is below its first codec, and showing one level
  collapses the graphs next to a codec without hiding anything.
-/

import TraceFold.Proofs.Folding.Effect
import TraceFold.Proofs.Folding.Step

namespace TraceFold.Scene

open Folding
open Dag (Child)

variable {s : Scene} {f f' : Folding} {d : Descent} {c x first : CodecId} {g h : GraphId}

/-! ## One level -/

/-- A codec feeds another one that belongs to no graph but to its own. -/
def Near (s : Scene) (c x : CodecId) : Prop :=
  Child s.dag.children c x ∧ ∀ g, s.pipeline.owner? x = some g → s.pipeline.owner? c = some g

/-- A codec feeds one that belongs to a graph other than its own. -/
def Borders (s : Scene) (c : CodecId) (g : GraphId) : Prop :=
  s.pipeline.owner? c ≠ some g ∧
    ∃ x, Child s.dag.children c x ∧ s.pipeline.owner? x = some g

/-- A codec belongs to a graph, and another codec does not belong to that. -/
def Foreign (s : Scene) (c x : CodecId) : Prop :=
  ∃ g, s.pipeline.owner? x = some g ∧ s.pipeline.owner? c ≠ some g

theorem isForeign_iff : s.isForeign c x ↔ s.Foreign c x := by
  unfold isForeign Foreign
  cases hown : s.pipeline.owner? x with
  | none => simp
  | some g =>
    rw [Option.isSome_some, Bool.true_and, bne_iff_ne]
    refine ⟨fun hne => ⟨g, rfl, hne.symm⟩, ?_⟩
    rintro ⟨g', hg', hne⟩ heq
    exact hne (heq.symm.trans hg')

theorem near_iff : s.Near c x ↔ Child s.dag.children c x ∧ ¬s.Foreign c x := by
  refine and_congr_right fun _ => ⟨fun hnear ⟨g, hg, hne⟩ => hne (hnear g hg), fun hnot g hg => ?_⟩
  by_contra hne
  exact hnot ⟨g, hg, hne⟩

theorem borders_iff : s.Borders c g ↔
    ∃ x, Child s.dag.children c x ∧ s.Foreign c x ∧ s.pipeline.owner? x = some g := by
  refine ⟨fun ⟨hne, x, hx, hg⟩ => ⟨x, hx, ⟨g, hg, hne⟩, hg⟩, ?_⟩
  rintro ⟨x, hx, ⟨g', hg', hne⟩, hg⟩
  obtain rfl := Option.some.inj (hg'.symm.trans hg)
  exact ⟨hne, x, hx, hg⟩

/-- The children that are shown as codecs are those that no other graph owns. -/
theorem mem_near :
    x ∈ (s.dag.childrenOf c).filter (fun child => !s.isForeign c child) ↔ s.Near c x := by
  rw [near_iff, ← isForeign_iff, Bool.not_eq_true, ← Bool.not_eq_true']
  exact List.mem_filter

/-- The graphs that are shown for children are those across the border. -/
theorem mem_ownersOf_foreign :
    g ∈ s.ownersOf ((s.dag.childrenOf c).filter (s.isForeign c)) ↔ s.Borders c g := by
  simp only [borders_iff, mem_ownersOf, List.mem_filter, isForeign_iff, and_assoc]
  rfl

section Known

variable (hs : s.Sound) (hf : s.Fits f)
include hs hf

theorem Near.known (hx : s.Near c x) : x.index < f.codecs.size :=
  hf.size_codecs ▸ hs.below_known (.single hx.1)

theorem Borders.known (hg : s.Borders c g) : g.index < f.graphs.size := by
  obtain ⟨-, x, -, hown⟩ := hg
  exact hf.size_graphs ▸ hs.graph_lt hown

/-- Showing a level brings the near children on screen and takes nothing off it. -/
theorem codecVisible_expandLevel :
    (s.expandLevel f c).1.codecVisible x ↔ f.codecVisible x ∨ s.Near c x := by
  simp only [expandLevel, moveCodec_eq, codecVisible_collapse, codecVisible_show, mem_near,
    codecVisible_moveGraphs, codecVisible_expand, codecs_moveGraphs, size_codecs_moveCodecs]
  rw [and_iff_left_of_imp (Near.known hs hf)]

/-- It brings the graphs of the other children on screen. -/
theorem graphVisible_expandLevel :
    (s.expandLevel f c).1.graphVisible g ↔ f.graphVisible g ∨ s.Borders c g := by
  simp only [expandLevel, moveCodec_eq, graphVisible_moveCodecs, graphVisible_collapse,
    graphVisible_show, mem_ownersOf_foreign, graphs_moveCodecs]
  rw [and_iff_left_of_imp (Borders.known hs hf)]

/-- It collapses these graphs as well, so that nothing else of them need be shown. -/
theorem graphCollapsed_expandLevel :
    (s.expandLevel f c).1.graphCollapsed g ↔ f.graphCollapsed g ∨ s.Borders c g := by
  simp only [expandLevel, moveCodec_eq, graphCollapsed_moveCodecs, graphCollapsed_collapse,
    graphCollapsed_show, mem_ownersOf_foreign, size_graphs_moveGraphs, graphs_moveCodecs]
  rw [and_iff_left_of_imp (Borders.known hs hf)]

end Known

/-! ## Collapsing a graph -/

/-- Collapsing a graph takes all its codecs off the screen but the root. -/
theorem codecVisible_collapseGraph (hs : s.Sound) : (s.collapseGraph f g).1.codecVisible x ↔
    f.codecVisible x ∧ (s.pipeline.owner? x = some g → x = .root) := by
  simp only [collapseGraph, moveGraph_eq, codecVisible_hide, codecVisible_moveGraphs,
    hs.lawful.mem_members]

/-- It collapses no other graph. -/
theorem graphCollapsed_collapseGraph : (s.collapseGraph f g).1.graphCollapsed h ↔
    f.graphCollapsed h ∨ h = g ∧ h.index < f.graphs.size := by
  simp [collapseGraph, moveGraph_eq]

theorem graphVisible_collapseGraph :
    (s.collapseGraph f g).1.graphVisible h = f.graphVisible h := by
  simp [collapseGraph, moveGraph_eq]

theorem codecCollapsed_collapseGraph :
    (s.collapseGraph f g).1.codecCollapsed x = f.codecCollapsed x := by
  simp [collapseGraph, moveGraph_eq]

/-! ## Expanding a graph -/

/-- What a descent inside a graph meets belongs to the graph. -/
theorem Met.owner?_within (hx : s.Met f (.within g) c x) : s.pipeline.owner? x = some g := by
  cases hx with
  | child _ hmeets => exact beq_iff_eq.1 hmeets
  | further _ _ _ hmeets => exact beq_iff_eq.1 hmeets

/-- Moves of graphs do not change what a descent meets. -/
theorem met_moveGraphs {m : Move} {gs : List GraphId} :
    s.Met (f.moveGraphs m gs) d c x ↔ s.Met f d c x :=
  ⟨Met.congr fun _ _ => codecCollapsed_moveGraphs,
    Met.congr fun _ _ => codecCollapsed_moveGraphs.symm⟩

/-- The codecs of a graph that expanding it from its first codec on shows. -/
def Opened (s : Scene) (f : Folding) (g : GraphId) (first x : CodecId) : Prop :=
  x = first ∨ f.codecCollapsed first = false ∧ s.Met f (.within g) first x

/-- Only codecs that the graph owns are shown when it is expanded. -/
theorem Opened.owner? (hs : s.Sound) (hfirst : s.firstCodec g = .ok first)
    (hx : s.Opened f g first x) : s.pipeline.owner? x = some g := by
  rcases hx with rfl | ⟨-, hmet⟩
  · exact hs.owner?_first hfirst
  · exact hmet.owner?_within

/-- The codecs that are shown then are those that are opened. -/
theorem mem_opened :
    x ∈ first :: (if (f.moveGraph .expand g).codecCollapsed first then []
        else s.descendants (f.moveGraph .expand g) (.within g) first)
      ↔ s.Opened f g first x := by
  rw [List.mem_cons, moveGraph_eq, codecCollapsed_moveGraphs, Opened]
  cases f.codecCollapsed first with
  | true => simp
  | false => simp [mem_descendants, met_moveGraphs]

section Opened

variable (hs : s.Sound) (hf : s.Fits f) (hfirst : s.firstCodec g = .ok first)
include hs hf hfirst

theorem Opened.known (hx : s.Opened f g first x) : x.index < f.codecs.size :=
  hf.size_codecs ▸ codec_lt_of_owner? (hx.owner? hs hfirst)

/-- Expanding a graph brings on screen what is opened, and takes nothing off it. -/
theorem codecVisible_expandGraph : (s.expandGraph f g first).1.codecVisible x ↔
    f.codecVisible x ∨ s.Opened f g first x := by
  simp only [expandGraph, codecVisible_show, mem_opened]
  simp only [moveGraph_eq, codecVisible_moveGraphs, codecs_moveGraphs]
  rw [and_iff_left_of_imp (Opened.known hs hf hfirst)]

end Opened

/-- It expands this graph, and no other one. -/
theorem graphCollapsed_expandGraph :
    (s.expandGraph f g first).1.graphCollapsed h ↔ f.graphCollapsed h ∧ h ≠ g := by
  simp [expandGraph, moveGraph_eq]

theorem graphVisible_expandGraph :
    (s.expandGraph f g first).1.graphVisible h = f.graphVisible h := by
  simp [expandGraph, moveGraph_eq]

theorem codecCollapsed_expandGraph :
    (s.expandGraph f g first).1.codecCollapsed x = f.codecCollapsed x := by
  simp [expandGraph, moveGraph_eq]

/-! ## Hiding a graph -/

/-- Hiding a graph at its first codec takes a codec off the screen: the first codec, or one
    below it, unless the first codec is collapsed already. -/
def Swept (s : Scene) (f : Folding) (first x : CodecId) : Prop :=
  x = first ∨ f.codecCollapsed first = false ∧ s.Below first x

/-- Hiding a graph takes what is swept off the screen, but never the root. -/
theorem codecVisible_hideGraph (hs : s.Sound) : (s.hideGraph f g first).1.codecVisible x ↔
    f.codecVisible x ∧ (s.Swept f first x → x = .root) := by
  simp only [hideGraph, moveCodec_eq, moveGraph_eq, codecVisible_hide, codecVisible_moveGraphs,
    List.mem_singleton, Swept]
  cases hcollapsed : f.codecCollapsed first with
  | true => simp
  | false =>
    rw [if_neg Bool.false_ne_true, codecVisible_collapseBelow hs, and_assoc]
    refine and_congr_right fun _ => ⟨?_, fun hx => ⟨fun hbelow => ?_, fun heq => hx (Or.inl heq)⟩⟩
    · rintro ⟨hnot, hroot⟩ (heq | ⟨-, hbelow⟩)
      · exact hroot heq
      · exact absurd hbelow hnot
    · -- the root is below no codec, so it is not spared here
      exact hs.ne_root_of_below hbelow (hx (Or.inr ⟨rfl, hbelow⟩))

/-- It collapses the first codec, if that was not collapsed before. -/
theorem codecCollapsed_hideGraph (hf : s.Fits f) (hknown : first.index < s.pipeline.codecs.size) :
    (s.hideGraph f g first).1.codecCollapsed x ↔ f.codecCollapsed x ∨ x = first := by
  simp only [hideGraph, moveCodec_eq, moveGraph_eq, codecCollapsed_hide, codecCollapsed_moveGraphs]
  cases hcollapsed : f.codecCollapsed first with
  | true =>
    rw [if_pos rfl, or_iff_left_of_imp]
    rintro rfl
    exact hcollapsed
  | false =>
    rw [if_neg Bool.false_ne_true, codecCollapsed_collapseBelow hf hknown]

/-- It collapses the graph, and no other one. -/
theorem graphCollapsed_hideGraph_iff (hg : g.index < f.graphs.size) :
    (s.hideGraph f g first).1.graphCollapsed h ↔ f.graphCollapsed h ∨ h = g := by
  have hsize : (if f.codecCollapsed first then f else (s.collapseBelow f first).1).graphs.size
      = f.graphs.size := by
    split
    · rfl
    · simp [collapseBelow, moveCodec_eq]
  have hknown : h = g → h.index < f.graphs.size := by
    rintro rfl
    exact hg
  simp only [hideGraph, moveCodec_eq, moveGraph_eq, graphCollapsed_moveCodecs,
    graphCollapsed_collapse, List.mem_singleton, hsize]
  rw [and_iff_left_of_imp hknown]
  cases f.codecCollapsed first with
  | true => simp
  | false => rw [if_neg Bool.false_ne_true, graphCollapsed_collapseBelow]

/-- A graph that has a first codec is collapsed when it is hidden there, and no other one is. -/
theorem graphCollapsed_hideGraph_of_first (hs : s.Sound) (hf : s.Fits f)
    (hfirst : s.firstCodec g = .ok first) :
    (s.hideGraph f g first).1.graphCollapsed h ↔ f.graphCollapsed h ∨ h = g :=
  graphCollapsed_hideGraph_iff (hf.size_graphs ▸ hs.graph_lt (hs.owner?_first hfirst))

/-- It takes the graphs off the screen that own something below the first codec and have nothing
    else there to keep them. -/
theorem graphVisible_hideGraph (hs : s.Sound) : (s.hideGraph f g first).1.graphVisible h ↔
    f.graphVisible h ∧
      (f.codecCollapsed first = false → s.OwnsBelow first h → s.Kept f first h) := by
  simp only [hideGraph, moveCodec_eq, moveGraph_eq, graphVisible_moveCodecs, graphVisible_collapse]
  cases f.codecCollapsed first with
  | true => simp
  | false => simp [graphVisible_collapseBelow hs]

/-! ## Restoring a graph -/

/-- The folding in which a graph is restored: the graph alone is shown and expanded. -/
def unveil (f : Folding) (g : GraphId) : Folding :=
  (f.moveGraph .expand g).moveGraph .show g

theorem Fits.unveil (hf : s.Fits f) (g : GraphId) : s.Fits (unveil f g) :=
  (hf.moveGraphs .expand [g]).moveGraphs .show [g]

theorem Fits.restoreGraph (hf : s.Fits f) (g : GraphId) (first : CodecId) :
    s.Fits (s.restoreGraph f g first).1 := by
  simp only [Scene.restoreGraph]
  split
  · exact ((hf.unveil g).expandBelow first).moveCodecs .show [first]
  · exact ((hf.unveil g).moveCodecs .show _).moveCodecs .show [first]

@[simp] theorem codecVisible_unveil : (unveil f g).codecVisible x = f.codecVisible x := by
  simp [unveil, moveGraph_eq]

@[simp] theorem codecCollapsed_unveil : (unveil f g).codecCollapsed x = f.codecCollapsed x := by
  simp [unveil, moveGraph_eq]

@[simp] theorem graphCollapsed_unveil :
    (unveil f g).graphCollapsed h ↔ f.graphCollapsed h ∧ h ≠ g := by
  simp [unveil, moveGraph_eq]

/-- To unveil a graph shows it and no other one. -/
theorem graphVisible_unveil (hf : s.Fits f) (hg : g.index < s.pipeline.graphs.size) :
    (unveil f g).graphVisible h ↔ f.graphVisible h ∨ h = g := by
  have hknown : h = g → h.index < f.graphs.size := by
    rintro rfl
    rwa [hf.size_graphs]
  simp only [unveil, moveGraph_eq, graphVisible_show, graphVisible_expand, List.mem_singleton,
    size_graphs_moveGraphs]
  rw [and_iff_left_of_imp hknown]

/-- A graph that is unveiled makes no difference to what is met, as only codecs stop a descent. -/
theorem met_unveil : s.Met (unveil f g) d c x ↔ s.Met f d c x := by
  simp only [unveil, moveGraph_eq, met_moveGraphs]

/-- If the first codec is collapsed, what is below it is expanded. -/
theorem restoreGraph_of_collapsed (hcollapsed : f.codecCollapsed first) :
    (s.restoreGraph f g first).1 = (s.expandBelow (unveil f g) first).1.moveCodec .show first := by
  have hfirst : (unveil f g).codecCollapsed first := by simpa using hcollapsed
  simp only [restoreGraph, unveil] at hfirst ⊢
  rw [if_pos hfirst]

/-- If not, what is met inside the graph is shown. -/
theorem restoreGraph_of_open (hopen : f.codecCollapsed first = false) :
    (s.restoreGraph f g first).1
      = ((unveil f g).moveCodecs .show (s.descendants (unveil f g) (.within g) first)).moveCodec
          .show first := by
  have hfirst : ¬(unveil f g).codecCollapsed first := by simp [hopen]
  simp only [restoreGraph, unveil] at hfirst ⊢
  rw [if_neg hfirst]

theorem codecCollapsed_restoreGraph_of_collapsed (hcollapsed : f.codecCollapsed first) :
    (s.restoreGraph f g first).1.codecCollapsed x ↔ f.codecCollapsed x ∧ x ≠ first := by
  rw [restoreGraph_of_collapsed hcollapsed, moveCodec_eq, codecCollapsed_show,
    codecCollapsed_expandBelow, codecCollapsed_unveil]

/-- The codecs that restoring a graph from its first codec on shows. -/
def Restored (s : Scene) (f : Folding) (g : GraphId) (first x : CodecId) : Prop :=
  x = first ∨
    if f.codecCollapsed first then s.Bared (unveil f g) first x else s.Met f (.within g) first x

section Restored

variable (hs : s.Sound) (hf : s.Fits f) (hfirst : s.firstCodec g = .ok first)
include hs hf hfirst

/-- Restoring a graph brings on screen what is restored, and takes nothing off it. -/
theorem codecVisible_restoreGraph : (s.restoreGraph f g first).1.codecVisible x ↔
    f.codecVisible x ∨ s.Restored f g first x := by
  have hknown : x = first → x.index < f.codecs.size := by
    rintro rfl
    exact hf.size_codecs ▸ hs.first_known hfirst
  unfold Restored
  cases hcollapsed : f.codecCollapsed first with
  | true =>
    -- the first codec is expanded, and shown once what is below it is
    have hsize : (s.expandBelow (unveil f g) first).1.codecs.size = f.codecs.size := by
      simp [expandBelow, unveil, moveCodec_eq, moveGraph_eq]
    rw [restoreGraph_of_collapsed hcollapsed, moveCodec_eq, codecVisible_show, List.mem_singleton,
      hsize, and_iff_left_of_imp hknown, codecVisible_expandBelow hs (hf.unveil g),
      codecVisible_unveil, if_pos rfl, or_assoc, or_comm (a := s.Bared _ _ _)]
  | false =>
    -- what a walk inside the graph meets is shown, and then the first codec
    have hmet : s.Met f (.within g) first x → x.index < f.codecs.size := fun hx =>
      hf.size_codecs ▸ hs.below_known hx.below_start
    rw [restoreGraph_of_open hcollapsed, moveCodec_eq, codecVisible_show, codecVisible_show,
      List.mem_singleton, mem_descendants, met_unveil, codecVisible_unveil, size_codecs_moveCodecs,
      if_neg Bool.false_ne_true]
    have hsize : (unveil f g).codecs.size = f.codecs.size := by simp [unveil, moveGraph_eq]
    rw [hsize, and_iff_left_of_imp hknown, and_iff_left_of_imp hmet, or_assoc,
      or_comm (a := s.Met _ _ _ _)]

/-- It shows the graph, and with a collapsed first codec also the graphs of what is met. -/
theorem graphVisible_restoreGraph : (s.restoreGraph f g first).1.graphVisible h ↔
    (f.graphVisible h ∨ h = g) ∨ f.codecCollapsed first ∧ s.OwnsMet f first h := by
  have hg : g.index < s.pipeline.graphs.size := hs.graph_lt (hs.owner?_first hfirst)
  cases hcollapsed : f.codecCollapsed first with
  | true =>
    -- expanding the first codec shows the graphs of all that it meets
    rw [restoreGraph_of_collapsed hcollapsed, moveCodec_eq, graphVisible_moveCodecs,
      graphVisible_expandBelow hs (hf.unveil g), graphVisible_unveil hf hg]
    simp [OwnsMet, met_unveil]
  | false =>
    -- once the graph itself is shown, only codecs are moved
    rw [restoreGraph_of_open hcollapsed, moveCodec_eq, graphVisible_moveCodecs,
      graphVisible_moveCodecs, graphVisible_unveil hf hg]
    simp

end Restored

/-- It expands the graph, and no other one. -/
theorem graphCollapsed_restoreGraph :
    (s.restoreGraph f g first).1.graphCollapsed h ↔ f.graphCollapsed h ∧ h ≠ g := by
  cases hcollapsed : f.codecCollapsed first with
  | true =>
    rw [restoreGraph_of_collapsed hcollapsed, moveCodec_eq, graphCollapsed_moveCodecs,
      graphCollapsed_expandBelow, graphCollapsed_unveil]
  | false =>
    rw [restoreGraph_of_open hcollapsed, moveCodec_eq, graphCollapsed_moveCodecs,
      graphCollapsed_moveCodecs, graphCollapsed_unveil]

end TraceFold.Scene
