/-
  TraceFold.Proofs.Folding.Regrouped

  Which members a graph lists, and which of them it lists first, is all that folding asks
  of its list.  So a scene is compared with itself under another table of graphs
  (`withGraphs`).  What looks at codecs, streams and the order alone is the same under every
  table, the picture among it; the toggles of graphs are the same if each graph keeps its
  kind, its first member and its members as a set (`Regroups`).
-/

import TraceFold.Picture.Project
import TraceFold.Proofs.Folding.Step

namespace TraceFold

/-! ## The same members in another list -/

/-- A graph of the same kind that lists the same codecs, and the same one first. -/
structure Graph.Regrouped (g g' : Graph) : Prop where
  kind_eq : g'.kind = g.kind
  first?_eq : g'.first? = g.first?
  mem_iff : ∀ c, c ∈ g'.codecs ↔ c ∈ g.codecs

/-- A regrouped graph is of the same kind. -/
theorem Graph.Regrouped.isStandard_eq {g g' : Graph} (h : g.Regrouped g') :
    g'.isStandard = g.isStandard := by
  rw [isStandard, isStandard, h.kind_eq]

/-- To move codecs is to move each of them once, in whatever order and however often they are
    listed. -/
theorem Folding.moveCodecs_congr {cs cs' : List CodecId} (hmem : ∀ c, c ∈ cs' ↔ c ∈ cs)
    (f : Folding) (m : Move) : f.moveCodecs m cs' = f.moveCodecs m cs := by
  have hcodecs : (f.moveCodecs m cs').codecs = (f.moveCodecs m cs).codecs := by
    refine Array.ext_getElem? fun i => ?_
    have hcodec : (f.moveCodecs m cs').codec? ⟨i⟩ = (f.moveCodecs m cs).codec? ⟨i⟩ := by
      simp only [codec?_moveCodecs, hmem]
    exact hcodec
  have hgraphs : (f.moveCodecs m cs').graphs = (f.moveCodecs m cs).graphs := by
    rw [graphs_moveCodecs, graphs_moveCodecs]
  calc f.moveCodecs m cs'
    _ = ⟨(f.moveCodecs m cs').codecs, (f.moveCodecs m cs').graphs⟩ := rfl
    _ = ⟨(f.moveCodecs m cs).codecs, (f.moveCodecs m cs).graphs⟩ := by rw [hcodecs, hgraphs]

namespace Scene

/-- A scene with another table of graphs. -/
def withGraphs (s : Scene) (graphs : Array Graph) : Scene :=
  { s with pipeline := { s.pipeline with graphs } }

/-- A table of graphs in which each graph of a scene is regrouped. -/
def Regroups (s : Scene) (graphs : Array Graph) : Prop :=
  ∀ i : Nat, Option.Rel Graph.Regrouped s.pipeline.graphs[i]? graphs[i]?

variable {s : Scene} {graphs : Array Graph}

/-! ## What does not look at the graphs -/

/-- A descent asks for owners, and codecs know theirs. -/
theorem walk_withGraphs (f : Folding) (d : Descent) (pending found : List CodecId) :
    (s.withGraphs graphs).walk f d pending found = s.walk f d pending found := by
  have hmeets_eq : ∀ c, (s.withGraphs graphs).meets d c = s.meets d c := fun c => by
    cases d <;> rfl
  fun_induction walk s f d pending found with
  | case1 found => rw [walk]
  | case2 found c rest hc ih => rw [walk, dif_pos hc, ih]
  | case3 found c rest hc hmeets hgo ih =>
    rw [walk, dif_neg hc, hmeets_eq, if_pos hmeets, if_pos hgo]
    exact ih
  | case4 found c rest hc hmeets hstop ih =>
    rw [walk, dif_neg hc, hmeets_eq, if_pos hmeets, if_neg hstop, ih]
  | case5 found c rest hc hnot ih => rw [walk, dif_neg hc, hmeets_eq, if_neg hnot, ih]

/-- What a descent meets is the same, and in the same order. -/
theorem descendants_withGraphs : (s.withGraphs graphs).descendants = s.descendants := by
  funext f d c
  rw [descendants_eq_walk, descendants_eq_walk]
  exact walk_withGraphs f d (s.dag.childrenOf c) []

theorem expandBelow_withGraphs : (s.withGraphs graphs).expandBelow = s.expandBelow := by
  funext f c
  unfold expandBelow
  rw [descendants_withGraphs]
  rfl

theorem expandLevel_withGraphs : (s.withGraphs graphs).expandLevel = s.expandLevel := rfl

theorem expandGraph_withGraphs : (s.withGraphs graphs).expandGraph = s.expandGraph := by
  funext f g first
  unfold expandGraph
  rw [descendants_withGraphs]

theorem restoreGraph_withGraphs : (s.withGraphs graphs).restoreGraph = s.restoreGraph := by
  funext f g first
  unfold restoreGraph
  rw [descendants_withGraphs, expandBelow_withGraphs]

theorem picture_withGraphs : (s.withGraphs graphs).picture = s.picture := rfl

/-! ## What looks at the graphs -/

namespace Regroups

variable (h : s.Regroups graphs)
include h

/-- A graph is missing from both tables, or its entries are regrouped. -/
theorem graph?_cases (g : GraphId) :
    (s.pipeline.graph? g = none ∧ (s.withGraphs graphs).pipeline.graph? g = none) ∨
      ∃ graph graph', s.pipeline.graph? g = some graph ∧
        (s.withGraphs graphs).pipeline.graph? g = some graph' ∧ graph.Regrouped graph' := by
  have hrel : Option.Rel Graph.Regrouped (s.pipeline.graph? g)
    ((s.withGraphs graphs).pipeline.graph? g) := h g.index
  generalize s.pipeline.graph? g = entry at hrel ⊢
  generalize (s.withGraphs graphs).pipeline.graph? g = entry' at hrel ⊢
  cases hrel with
  | none => exact Or.inl ⟨rfl, rfl⟩
  | some hgraph => exact Or.inr ⟨_, _, rfl, rfl, hgraph⟩

/-- There are as many graphs as before. -/
theorem size_eq : (s.withGraphs graphs).pipeline.graphs.size = s.pipeline.graphs.size := by
  have hnone : ∀ i : Nat, (s.withGraphs graphs).pipeline.graph? ⟨i⟩ = none ↔
      s.pipeline.graph? ⟨i⟩ = none := fun i => by
    rcases h.graph?_cases ⟨i⟩ with ⟨hnone, hnone'⟩ | ⟨graph, graph', hgraph, hgraph', -⟩
    · rw [hnone, hnone']
    · simp [hgraph, hgraph']
  simp only [Pipeline.graph?, Array.getElem?_eq_none_iff] at hnone
  exact Nat.le_antisymm ((hnone _).2 le_rfl) ((hnone _).1 le_rfl)

theorem graphIds_eq : (s.withGraphs graphs).pipeline.graphIds = s.pipeline.graphIds := by
  unfold Pipeline.graphIds
  rw [h.size_eq]

/-- Each of them owns the same codecs. -/
theorem mem_members (g : GraphId) (c : CodecId) :
    c ∈ (s.withGraphs graphs).pipeline.members g ↔ c ∈ s.pipeline.members g := by
  unfold Pipeline.members
  rcases h.graph?_cases g with ⟨hnone, hnone'⟩ | ⟨graph, graph', hgraph, hgraph', hregrouped⟩
  · rw [hnone, hnone']
  · rw [hgraph, hgraph']
    exact hregrouped.mem_iff c

/-- What is found of a graph differs, whether it is found does not. -/
theorem map_knownGraph {α : Type} (g : GraphId) (result : α) :
    ((s.withGraphs graphs).knownGraph g).map (fun _ => result) =
      (s.knownGraph g).map fun _ => result := by
  unfold knownGraph
  rcases h.graph?_cases g with ⟨hnone, hnone'⟩ | ⟨graph, graph', hgraph, hgraph', -⟩
  · rw [hnone, hnone']
  · rw [hgraph, hgraph']
    rfl

/-- Each of them lists the same codec first. -/
theorem firstCodec_eq : (s.withGraphs graphs).firstCodec = s.firstCodec := by
  funext g
  unfold firstCodec knownGraph
  rcases h.graph?_cases g with ⟨hnone, hnone'⟩ | ⟨graph, graph', hgraph, hgraph', hregrouped⟩
  · rw [hnone, hnone']
  · simp only [hgraph, hgraph', hregrouped.first?_eq]

/-- A codec is the first one of the same standard graph. -/
theorem standardFirst?_eq : (s.withGraphs graphs).standardFirst? = s.standardFirst? := by
  funext g
  unfold standardFirst?
  rcases h.graph?_cases g with ⟨hnone, hnone'⟩ | ⟨graph, graph', hgraph, hgraph', hregrouped⟩
  · rw [hnone, hnone']
  · simp only [hgraph, hgraph', Option.bind_eq_bind, Option.bind_some,
      hregrouped.isStandard_eq, hregrouped.first?_eq]

/-- Whether all codecs of a graph are hidden does not depend on how it lists them. -/
theorem allHidden_eq : (s.withGraphs graphs).allHidden = s.allHidden := by
  funext f g
  refine Bool.eq_iff_iff.2 ?_
  simp only [allHidden, List.all_eq_true, h.mem_members]

/-! ### Toggles -/

/-- Collapsing asks of the graphs whether all their codecs are hidden, and nothing else. -/
theorem collapseBelow_eq : (s.withGraphs graphs).collapseBelow = s.collapseBelow := by
  funext f c
  unfold collapseBelow
  rw [descendants_withGraphs, h.allHidden_eq]
  rfl

theorem toggleBelow_eq : (s.withGraphs graphs).toggleBelow = s.toggleBelow := by
  funext f c
  unfold toggleBelow
  rw [expandBelow_withGraphs, h.collapseBelow_eq]

/-- The codecs of a graph are all hidden, in whatever order. -/
theorem collapseGraph_eq : (s.withGraphs graphs).collapseGraph = s.collapseGraph := by
  funext f g
  unfold collapseGraph
  rw [Folding.moveCodecs_congr (h.mem_members g)]

/-- Hiding starts at the first codec of the graph, and goes down from there. -/
theorem hideGraph_eq : (s.withGraphs graphs).hideGraph = s.hideGraph := by
  funext f g first
  unfold hideGraph
  rw [h.collapseBelow_eq]

theorem toggleHidden_eq : (s.withGraphs graphs).toggleHidden = s.toggleHidden := by
  funext f g first
  unfold toggleHidden
  rw [restoreGraph_withGraphs, h.hideGraph_eq]

/-- A standard graph is settled by its kind, its folds and its first codec. -/
theorem settleStandard?_eq :
    (s.withGraphs graphs).settleStandard? = s.settleStandard? := by
  funext collapse f g
  unfold settleStandard?
  rw [h.standardFirst?_eq, h.toggleHidden_eq]

theorem settleAll_eq (collapse : Bool) (f : Folding) (gs : List GraphId) :
    (s.withGraphs graphs).settleAll collapse f gs = s.settleAll collapse f gs := by
  induction gs generalizing f with
  | nil => rfl
  | cons g rest ih =>
    -- the rest is settled in what this graph has left
    unfold settleAll
    simp only [h.settleStandard?_eq, ih]

theorem toggleStandard_eq : (s.withGraphs graphs).toggleStandard = s.toggleStandard := by
  funext collapse f
  unfold toggleStandard
  rw [h.graphIds_eq, h.settleAll_eq]

/-- A toggle of a graph collapses or expands it, and gives the same answer. -/
theorem toggleGraph_eq : (s.withGraphs graphs).toggleGraph = s.toggleGraph := by
  funext f g
  -- only a collapsed graph is asked for its first codec
  cases hcollapsed : f.graphCollapsed g with
  | true =>
    rw [toggleGraph_of_collapsed hcollapsed, toggleGraph_of_collapsed hcollapsed,
      h.firstCodec_eq, expandGraph_withGraphs]
  | false =>
    rw [toggleGraph_of_open hcollapsed, toggleGraph_of_open hcollapsed, h.map_knownGraph,
      h.collapseGraph_eq]

/-! ### Actions and the start -/

/-- Every action does the same, or is refused for the same reason. -/
theorem apply_eq : (s.withGraphs graphs).apply = s.apply := by
  funext f a
  cases a with
  | toggle node =>
    cases node with
    | codec c =>
      unfold apply
      rw [h.toggleBelow_eq]
      rfl
    | graph g =>
      unfold apply
      rw [h.toggleGraph_eq]
  | expand c =>
    unfold apply
    rw [expandLevel_withGraphs]
    rfl
  | hide g =>
    unfold apply
    rw [h.firstCodec_eq, h.toggleHidden_eq]
  | standard collapse =>
    unfold apply
    rw [h.toggleStandard_eq]

theorem foldAt_eq : (s.withGraphs graphs).foldAt = s.foldAt := by
  funext f c
  unfold foldAt
  rw [h.standardFirst?_eq, h.toggleHidden_eq]
  rfl

/-- Both scenes start with the same folds. -/
theorem start_eq : (s.withGraphs graphs).start = s.start := by
  have hunfolded : Folding.unfolded (s.withGraphs graphs).pipeline = .unfolded s.pipeline := by
    unfold Folding.unfolded
    rw [h.size_eq]
    rfl
  unfold start
  rw [hunfolded, h.foldAt_eq]
  rfl

end Regroups

end Scene

end TraceFold
