/-
  TraceFold.Proofs.Folding.Toggle

  All that toggling a codec does, told by the codecs' graph and the folds before it.
  Collapsing hides what is below the codec, and expanding shows what paths lead to that
  pass no collapsed codec on the way (`OpenPath`); the nodes to look at follow these paths
  depth first.  No other fold changes, in whatever state the nodes were
  (`toggle_codec_effect`).
-/

import TraceFold.Proofs.Folding.DepthFirst
import TraceFold.Proofs.Folding.Focus

namespace TraceFold.Scene

open Folding
open Dag (Child)

variable {s : Scene} {f f' : Folding} {c x : CodecId} {g : GraphId} {nodes : List NodeId}

/-! ## Paths past expanded codecs -/

/-- A path leads from a codec to another one, and no codec in between is collapsed. -/
def OpenPath (s : Scene) (f : Folding) (c x : CodecId) : Prop :=
  ∃ inner : List CodecId, (c :: (inner ++ [x])).IsChain (Child s.dag.children) ∧
    ∀ u ∈ inner, f.codecCollapsed u = false

/-- What is met down to the collapsed codecs is what open paths lead to. -/
theorem met_iff_openPath : s.Met f .stopAtCollapsed c x ↔ s.OpenPath f c x := by
  simp [met_iff_exists_path, OpenPath, goesOn, meets]

theorem ownsMet_iff_openPath : s.OwnsMet f c g ↔
    ∃ x, s.OpenPath f c x ∧ s.pipeline.owner? x = some g := by
  simp only [OwnsMet, met_iff_openPath]

/-! ## Toggling -/

/-- What collapsing a codec leaves behind. -/
structure CollapsesBelow (s : Scene) (f : Folding) (c : CodecId) (f' : Folding)
    (nodes : List NodeId) : Prop where
  codecCollapsed_iff : ∀ x, f'.codecCollapsed x ↔ f.codecCollapsed x ∨ x = c
  graphCollapsed_eq : ∀ g, f'.graphCollapsed g = f.graphCollapsed g
  codecVisible_iff : ∀ x, f'.codecVisible x ↔ f.codecVisible x ∧ ¬s.Below c x
  /-- A graph goes if it owns a codec below and is collapsed or has nothing left. -/
  graphVisible_iff : ∀ g, f'.graphVisible g ↔ f.graphVisible g ∧
    ¬((∃ x, s.Below c x ∧ s.pipeline.owner? x = some g) ∧
      (f.graphCollapsed g ∨ ∀ x ∈ s.pipeline.members g, f'.codecVisible x = false))
  nodes_eq : nodes = [.codec c]

/-- What expanding a codec leaves behind. -/
structure ExpandsBelow (s : Scene) (f : Folding) (c : CodecId) (f' : Folding)
    (nodes : List NodeId) : Prop where
  codecCollapsed_iff : ∀ x, f'.codecCollapsed x ↔ f.codecCollapsed x ∧ x ≠ c
  graphCollapsed_eq : ∀ g, f'.graphCollapsed g = f.graphCollapsed g
  codecVisible_iff : ∀ x, f'.codecVisible x ↔ f.codecVisible x ∨
    s.OpenPath f c x ∧ ∀ g, s.pipeline.owner? x = some g → f.graphCollapsed g = false
  graphVisible_iff : ∀ g, f'.graphVisible g ↔ f.graphVisible g ∨
    ∃ x, s.OpenPath f c x ∧ s.pipeline.owner? x = some g
  nodup_nodes : nodes.Nodup
  mem_nodes : ∀ n, n ∈ nodes ↔ n = .codec c ∨
    (∃ x, n = .codec x ∧ s.OpenPath f c x ∧
      ∀ g, s.pipeline.owner? x = some g → f.graphCollapsed g = false) ∨
    ∃ g, n = .graph g ∧ f.graphCollapsed g ∧ ∃ x, s.OpenPath f c x ∧ s.pipeline.owner? x = some g
  /-- They come in the order in which a depth-first walk along all paths names them, or what
      they stand in for, first; the codec comes last. -/
  nodes_eq : ∃ paths, s.Listing f .stopAtCollapsed (s.dag.childrenOf c) paths ∧
    nodes = (paths.map (s.standIn f)).eraseDups ++ [.codec c]

/-- Collapsing has all the effects that a collapsing toggle is to have. -/
theorem collapsesBelow_collapseBelow (hs : s.Sound) (hf : s.Fits f)
    (hc : c.index < s.pipeline.codecs.size) :
    s.CollapsesBelow f c (s.collapseBelow f c).1 (s.collapseBelow f c).2 where
  codecCollapsed_iff x := codecCollapsed_collapseBelow hf hc
  graphCollapsed_eq g := graphCollapsed_collapseBelow
  codecVisible_iff x := codecVisible_collapseBelow hs
  graphVisible_iff g := by
    rw [graphVisible_collapseBelow hs]
    refine and_congr_right fun _ => ?_
    -- a graph is kept unless it is collapsed or nothing that it owns is left
    have hkept : s.Kept f c g ↔ ¬(f.graphCollapsed g ∨
        ∀ x ∈ s.pipeline.members g, (s.collapseBelow f c).1.codecVisible x = false) := by
      simp only [Kept, not_or, not_forall, Bool.not_eq_true, Bool.not_eq_false,
        codecVisible_collapseBelow hs, hs.lawful.mem_members, exists_prop]
    rw [hkept, not_and, OwnsBelow]
  nodes_eq := rfl

/-- Expanding has all the effects that an expanding toggle is to have. -/
theorem expandsBelow_expandBelow (hs : s.Sound) (hf : s.Fits f) :
    s.ExpandsBelow f c (s.expandBelow f c).1 (s.expandBelow f c).2 where
  codecCollapsed_iff x := codecCollapsed_expandBelow
  graphCollapsed_eq g := graphCollapsed_expandBelow
  codecVisible_iff x := by rw [codecVisible_expandBelow hs hf, Bared, met_iff_openPath]
  graphVisible_iff g := by rw [graphVisible_expandBelow hs hf, ownsMet_iff_openPath]
  nodup_nodes := nodup_expandBelow_nodes hs
  mem_nodes n := by
    simp only [mem_expandBelow_nodes hs, Bared, met_iff_openPath, ownsMet_iff_openPath]
  nodes_eq := by
    obtain ⟨paths, hpaths⟩ := hs.exists_listing f .stopAtCollapsed c
    refine ⟨paths, hpaths, ?_⟩
    rw [expandBelow_nodes hs, descendants_eq_eraseDups hs hpaths, eraseDups_map_eraseDups]

/-- Toggling a codec of a pipeline succeeds, whatever the states of the nodes, and either
    expands or collapses what is below. -/
theorem toggle_codec_effect {t : Trace} {settings : Settings}
    (hbuild : Scene.build t settings = .ok s) (hf : s.Fits f)
    (hc : c.index < s.pipeline.codecs.size) : ∃ f' nodes,
      s.apply f (.toggle (.codec c)) = .ok (f', nodes) ∧ s.Fits f' ∧
        (f.codecCollapsed c → s.ExpandsBelow f c f' nodes) ∧
          (f.codecCollapsed c = false → s.CollapsesBelow f c f' nodes) := by
  have hs := sound_of_build hbuild
  refine ⟨(s.toggleBelow f c).1, (s.toggleBelow f c).2, apply_toggle_codec hc, ?_, ?_, ?_⟩
  · rw [toggleBelow]
    split
    · exact hf.expandBelow c
    · exact hf.collapseBelow c
  · intro hcollapsed
    rw [toggleBelow, if_pos hcollapsed]
    exact expandsBelow_expandBelow hs hf
  · intro hopen
    rw [toggleBelow, if_neg (Bool.eq_false_iff.1 hopen)]
    exact collapsesBelow_collapseBelow hs hf hc

/-- Of a diamond, the ends and one side are collapsed, and so is the graph that owns the
    other side; all but the start is off the screen. -/
def tucked (p : Pipeline) : Folding :=
  (((unfolded p).moveCodecs .collapse [⟨0⟩, ⟨2⟩]).moveCodecs .hide [⟨1⟩, ⟨2⟩, ⟨3⟩]).moveGraphs
    .collapse [⟨0⟩]

/-- The join is come to through the graph, and the collapsed side after it. -/
theorem toggle_codec_effect_tucked : ∃ s f f' nodes, Scene.build diamond {} = .ok s ∧
    f = tucked s.pipeline ∧ s.Fits f ∧
    s.apply f (.toggle (.codec ⟨0⟩)) = .ok (f', nodes) ∧ s.ExpandsBelow f ⟨0⟩ f' nodes ∧
    nodes = [.graph ⟨0⟩, .codec ⟨3⟩, .codec ⟨2⟩, .codec ⟨0⟩] := by
  have hrun : (Scene.build diamond {}).toOption.any (fun s =>
      (tucked s.pipeline).codecCollapsed ⟨0⟩ &&
        (s.apply (tucked s.pipeline) (.toggle (.codec ⟨0⟩))).toOption.any fun r =>
          r.2 = [.graph ⟨0⟩, .codec ⟨3⟩, .codec ⟨2⟩, .codec ⟨0⟩]) = true := by
    decide +kernel
  obtain ⟨s, hs, hq⟩ := exists_of_any_toOption hrun
  obtain ⟨hcollapsed, hafter⟩ := Bool.and_eq_true_iff.1 hq
  obtain ⟨r, hr, hnodes⟩ := exists_of_any_toOption hafter
  have hf : s.Fits (tucked s.pipeline) :=
    (((Regular.unfolded (sound_of_build hs)).toFits.moveCodecs _ _).moveCodecs _ _).moveGraphs _ _
  have hknown : (⟨0⟩ : CodecId).index < s.pipeline.codecs.size := by
    rw [size_codecs_of_build hs]
    decide
  obtain ⟨f', nodes, happly, -, hexpands, -⟩ := toggle_codec_effect hs hf hknown
  obtain rfl := Except.ok.inj (hr.symm.trans happly)
  exact ⟨s, _, f', nodes, hs, rfl, hf, happly, hexpands hcollapsed, of_decide_eq_true hnodes⟩

end TraceFold.Scene
