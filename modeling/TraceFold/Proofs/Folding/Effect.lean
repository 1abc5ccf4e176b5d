/-
  TraceFold.Proofs.Folding.Effect

  What collapsing and expanding below a codec does to every node.  Collapsing takes
  everything below the codec off the screen, and with it the graphs that are collapsed or
  left empty.  Expanding brings back what a descent to the collapsed codecs meets, except
  inside collapsed graphs, and all graphs of what it meets.  The two work on different
  sets of nodes, which is why one need not undo the other.
-/

import TraceFold.Proofs.Folding.Reachable

namespace TraceFold.Scene

open Folding

variable {s : Scene} {f f' : Folding} {c x : CodecId} {g : GraphId}

/-! ## The nodes below a codec -/

/-- A graph owns a codec that is below another one. -/
def OwnsBelow (s : Scene) (c : CodecId) (g : GraphId) : Prop :=
  ∃ x, s.Below c x ∧ s.pipeline.owner? x = some g

/-- A graph owns a codec that is met on the way down to the collapsed codecs. -/
def OwnsMet (s : Scene) (f : Folding) (c : CodecId) (g : GraphId) : Prop :=
  ∃ x, s.Met f .stopAtCollapsed c x ∧ s.pipeline.owner? x = some g

/-- A codec is met on the way down to the collapsed codecs and is not inside a collapsed
    graph. -/
def Bared (s : Scene) (f : Folding) (c x : CodecId) : Prop :=
  s.Met f .stopAtCollapsed c x ∧ ∀ g, s.pipeline.owner? x = some g → f.graphCollapsed g = false

/-- A graph that is not collapsed has a codec on screen that is not below another one. -/
def Kept (s : Scene) (f : Folding) (c : CodecId) (g : GraphId) : Prop :=
  f.graphCollapsed g = false ∧
    ∃ x, s.pipeline.owner? x = some g ∧ f.codecVisible x ∧ ¬s.Below c x

theorem OwnsMet.ownsBelow (h : s.OwnsMet f c g) : s.OwnsBelow c g := by
  obtain ⟨x, hx, hown⟩ := h
  exact ⟨x, hx.below_start, hown⟩

/-- A graph that owns a codec is in the tables and lists it. -/
theorem Sound.graph_known (hs : s.Sound) (hown : s.pipeline.owner? x = some g) :
    ∃ graph, s.pipeline.graph? g = some graph ∧ x ∈ graph.codecs := by
  have hmem := (hs.lawful.mem_members x g).2 hown
  unfold Pipeline.members at hmem
  cases hgraph : s.pipeline.graph? g with
  | none => simp [hgraph] at hmem
  | some graph => exact ⟨graph, rfl, by simpa [hgraph] using hmem⟩

theorem Sound.graph_lt (hs : s.Sound) (hown : s.pipeline.owner? x = some g) :
    g.index < s.pipeline.graphs.size := by
  obtain ⟨graph, hgraph, -⟩ := hs.graph_known hown
  exact (Array.getElem?_eq_some_iff.1 hgraph).1

/-- Two foldings collapse the same graphs, and the same codecs below a codec. -/
structure AgreeBelow (s : Scene) (c : CodecId) (f f' : Folding) : Prop where
  codecs : ∀ u, s.Below c u → f.codecCollapsed u = f'.codecCollapsed u
  graphs : ∀ g, f.graphCollapsed g = f'.graphCollapsed g

namespace AgreeBelow

variable (h : s.AgreeBelow c f f')
include h

/-- Foldings that agree below a codec meet the same there. -/
theorem met {d : Descent} : s.Met f d c x ↔ s.Met f' d c x :=
  ⟨Met.congr h.codecs, Met.congr fun u hu => (h.codecs u hu).symm⟩

/-- They bare the same there. -/
theorem bared : s.Bared f c x ↔ s.Bared f' c x := by
  simp only [Bared, h.met, h.graphs]

theorem ownsMet : s.OwnsMet f c g ↔ s.OwnsMet f' c g := by
  simp only [OwnsMet, h.met]

end AgreeBelow

/-- Whether a codec itself is collapsed does not matter for what is below it. -/
theorem Sound.agreeBelow_moveCodecs (hs : s.Sound) {m : Move} :
    s.AgreeBelow c (f.moveCodecs m [c]) f where
  codecs u hu := by
    have hne : ¬(u ∈ [c] ∧ ¬(u = .root ∧ m = .hide)) := fun h =>
      hs.ne_of_below hu (List.mem_singleton.1 h.1)
    rw [codecCollapsed_moveCodecs, if_neg hne]
  graphs g := graphCollapsed_moveCodecs

/-! ## Expanding -/

theorem codec?_standIn {u : CodecId} : (s.standIn f u).codec? = some x ↔
    u = x ∧ ∀ g, s.pipeline.owner? x = some g → f.graphCollapsed g = false := by
  unfold standIn
  cases hown : s.pipeline.owner? u with
  | none =>
    refine ⟨?_, ?_⟩
    · intro hx
      obtain rfl : u = x := by simpa [NodeId.codec?] using hx
      exact ⟨rfl, fun g hg => by simp [hown] at hg⟩
    · rintro ⟨rfl, -⟩
      rfl
  | some g =>
    refine ⟨?_, ?_⟩
    · intro hx
      cases hcollapsed : f.graphCollapsed g with
      | true => simp [hcollapsed, NodeId.codec?] at hx
      | false =>
        obtain rfl : u = x := by simpa [hcollapsed, NodeId.codec?] using hx
        refine ⟨rfl, fun g' hg' => ?_⟩
        obtain rfl := Option.some.inj (hown.symm.trans hg')
        exact hcollapsed
    · rintro ⟨rfl, hopen⟩
      simp [hopen g hown, NodeId.codec?]

/-- Expanding what is below a codec expands the codec itself, and no other one. -/
theorem codecCollapsed_expandBelow :
    (s.expandBelow f c).1.codecCollapsed x ↔ f.codecCollapsed x ∧ x ≠ c := by
  simp [expandBelow, moveCodec_eq]

theorem graphCollapsed_expandBelow :
    (s.expandBelow f c).1.graphCollapsed g = f.graphCollapsed g := by
  simp [expandBelow, moveCodec_eq]

/-- It shows what is bared. -/
theorem codecVisible_expandBelow (hs : s.Sound) (h : s.Fits f) :
    (s.expandBelow f c).1.codecVisible x ↔ f.codecVisible x ∨ s.Bared f c x := by
  -- a codec is shown if it stands for itself among those that are met
  have hshown : x ∈ ((s.descendants (f.moveCodecs .expand [c]) .stopAtCollapsed c).map
      (s.standIn (f.moveCodecs .expand [c]))).filterMap NodeId.codec? ↔ s.Bared f c x := by
    simp only [List.mem_filterMap, List.mem_map, exists_exists_and_eq_and, codec?_standIn,
      mem_descendants, hs.agreeBelow_moveCodecs.met, Bared, graphCollapsed_moveCodecs]
    refine ⟨?_, fun hx => ⟨x, hx.1, rfl, hx.2⟩⟩
    rintro ⟨u, hu, rfl, hopen⟩
    exact ⟨hu, hopen⟩
  have hknown : s.Bared f c x → x.index < f.codecs.size := fun hx =>
    h.size_codecs ▸ hs.below_known hx.1.below_start
  simp only [expandBelow, codecVisible_show, hshown, codecVisible_moveGraphs, codecs_moveGraphs,
    moveCodec_eq, codecVisible_expand, size_codecs_moveCodecs]
  rw [and_iff_left_of_imp hknown]

/-- Expanding a codec shows no codec that is not below it. -/
theorem codecVisible_expandBelow_of_not_below (hs : s.Sound) (h : s.Fits f)
    (hx : ¬s.Below c x) : (s.expandBelow f c).1.codecVisible x ↔ f.codecVisible x := by
  rw [codecVisible_expandBelow hs h]
  exact or_iff_left fun hbared => hx hbared.1.below_start

/-- It shows the graphs of all that is met. -/
theorem graphVisible_expandBelow (hs : s.Sound) (h : s.Fits f) :
    (s.expandBelow f c).1.graphVisible g ↔ f.graphVisible g ∨ s.OwnsMet f c g := by
  have hshown : g ∈ s.ownersOf (s.descendants (f.moveCodecs .expand [c]) .stopAtCollapsed c)
      ↔ s.OwnsMet f c g := by
    simp only [mem_ownersOf, mem_descendants, hs.agreeBelow_moveCodecs.met, OwnsMet]
  have hknown : s.OwnsMet f c g → g.index < f.graphs.size := by
    rintro ⟨x, -, hown⟩
    exact h.size_graphs ▸ hs.graph_lt hown
  simp only [expandBelow, graphVisible_moveCodecs, graphVisible_show, hshown, moveCodec_eq,
    graphs_moveCodecs]
  rw [and_iff_left_of_imp hknown]

/-- It leaves all collapses below the codec as they are. -/
theorem agreeBelow_expandBelow (hs : s.Sound) : s.AgreeBelow c (s.expandBelow f c).1 f where
  codecs u hu := by
    rw [Bool.eq_iff_iff, codecCollapsed_expandBelow]
    exact and_iff_left (hs.ne_of_below hu)
  graphs _ := graphCollapsed_expandBelow

/-! ## Collapsing -/

/-- Collapsing what is below a codec collapses the codec itself, and no other one. -/
theorem codecCollapsed_collapseBelow (h : s.Fits f) (hc : c.index < s.pipeline.codecs.size) :
    (s.collapseBelow f c).1.codecCollapsed x ↔ f.codecCollapsed x ∨ x = c := by
  have hknown : x = c → x.index < f.codecs.size := by
    rintro rfl
    rwa [h.size_codecs]
  simp only [collapseBelow, moveCodec_eq, codecCollapsed_moveGraphs, codecCollapsed_hide,
    codecCollapsed_collapse, List.mem_singleton]
  rw [and_iff_left_of_imp hknown]

theorem graphCollapsed_collapseBelow :
    (s.collapseBelow f c).1.graphCollapsed g = f.graphCollapsed g := by
  simp [collapseBelow, moveCodec_eq]

/-- It leaves all collapses below the codec as they are. -/
theorem agreeBelow_collapseBelow (hs : s.Sound) (h : s.Fits f)
    (hc : c.index < s.pipeline.codecs.size) : s.AgreeBelow c (s.collapseBelow f c).1 f where
  codecs u hu := by
    rw [Bool.eq_iff_iff, codecCollapsed_collapseBelow h hc]
    exact or_iff_left (hs.ne_of_below hu)
  graphs _ := graphCollapsed_collapseBelow

/-- What is on screen once everything below a codec is hidden. -/
theorem codecVisible_hideBelow (hs : s.Sound) :
    ((f.moveCodecs .collapse [c]).moveCodecs .hide
      (s.descendants (f.moveCodecs .collapse [c]) .unbounded c)).codecVisible x
      ↔ f.codecVisible x ∧ ¬s.Below c x := by
  rw [codecVisible_hide, mem_descendants, met_unbounded, codecVisible_collapse]
  -- the move spares the root, but the root is below no codec
  refine and_congr_right fun _ => ⟨fun hroot hx => ?_, fun hx hbelow => absurd hbelow hx⟩
  exact hs.ne_root_of_below hx (hroot hx)

/-- It hides everything below the codec. -/
theorem codecVisible_collapseBelow (hs : s.Sound) :
    (s.collapseBelow f c).1.codecVisible x ↔ f.codecVisible x ∧ ¬s.Below c x := by
  simp only [collapseBelow, moveCodec_eq, codecVisible_moveGraphs, codecVisible_hideBelow hs]

theorem allHidden_iff : s.allHidden f g ↔ ∀ x ∈ s.pipeline.members g, ¬f.codecVisible x := by
  simp [allHidden]

/-- It hides the graphs that own something below and are not kept by a codec elsewhere. -/
theorem graphVisible_collapseBelow (hs : s.Sound) : (s.collapseBelow f c).1.graphVisible g ↔
    f.graphVisible g ∧ (s.OwnsBelow c g → s.Kept f c g) := by
  have howners : g ∈ s.ownersOf (s.descendants (f.moveCodecs .collapse [c]) .unbounded c)
      ↔ s.OwnsBelow c g := by
    simp only [mem_ownersOf, mem_descendants, met_unbounded, OwnsBelow]
  have hempty : s.allHidden ((f.moveCodecs .collapse [c]).moveCodecs .hide
      (s.descendants (f.moveCodecs .collapse [c]) .unbounded c)) g ↔
      ∀ x, s.pipeline.owner? x = some g → ¬(f.codecVisible x ∧ ¬s.Below c x) := by
    simp only [allHidden_iff, codecVisible_hideBelow hs, hs.lawful.mem_members]
  simp only [collapseBelow, graphVisible_hide, List.mem_filter, howners, Bool.or_eq_true, hempty,
    moveCodec_eq, graphVisible_moveCodecs, graphCollapsed_moveCodecs]
  refine and_congr_right fun _ => ⟨fun hleft hbelow => ?_, fun hkept hhidden => ?_⟩
  · -- what is not hidden is neither collapsed nor empty
    have hnot := not_or.1 fun hor => hleft ⟨hbelow, hor⟩
    push Not at hnot
    obtain ⟨hopen, x, hown, hx⟩ := hnot
    exact ⟨by simpa using hopen, x, hown, hx⟩
  · obtain ⟨hopen, x, hown, hx⟩ := hkept hhidden.1
    rcases hhidden.2 with hcollapsed | hall
    · rw [hopen] at hcollapsed
      cases hcollapsed
    · exact hall x hown hx

end TraceFold.Scene
