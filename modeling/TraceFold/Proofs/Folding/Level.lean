/-
  TraceFold.Proofs.Folding.Level

  All that showing one level does.  A child that belongs to a graph other than the codec's own
  is foreign (`Foreign`); it stays as visible as it was, and its graph is shown instead,
  collapsed.  Any other child is shown.  Children that have children are collapsed, foreign or
  not, so nothing further down comes into view.  All other nodes are as before
  (`expand_level_effect`), and the nodes to look at follow the order of the children.
-/

import TraceFold.Proofs.Folding.Focus

namespace TraceFold.Scene

open Folding
open Dag (Child)

variable {s : Scene} {f f' : Folding} {c x : CodecId} {g : GraphId} {n : NodeId}
  {nodes : List NodeId}

/-! ## Children with children -/

theorem hasChildren_iff : s.dag.hasChildren x ↔ ∃ y, Child s.dag.children x y := by
  rw [Dag.hasChildren, Bool.not_eq_true', List.isEmpty_eq_false_iff_exists_mem]
  rfl

/-- The codec is expanded, and the children that have children of their own are collapsed. -/
theorem codecCollapsed_expandLevel (hs : s.Sound) (hf : s.Fits f) :
    (s.expandLevel f c).1.codecCollapsed x ↔ f.codecCollapsed x ∧ x ≠ c ∨
      Child s.dag.children c x ∧ ∃ y, Child s.dag.children x y := by
  have hknown : Child s.dag.children c x → x.index < f.codecs.size := fun hx =>
    hf.size_codecs ▸ hs.below_known (.single hx)
  simp only [expandLevel, moveCodec_eq, codecCollapsed_collapse, codecCollapsed_show,
    codecCollapsed_moveGraphs, codecCollapsed_expand, size_codecs_moveCodecs, codecs_moveGraphs,
    List.mem_singleton, List.mem_filter, hasChildren_iff]
  rw [and_iff_left_of_imp fun hx => hknown hx.1]
  rfl

/-! ## The nodes to look at -/

/-- The nodes to look at once one level is shown. -/
structure LevelNodes (s : Scene) (c : CodecId) (nodes : List NodeId) : Prop where
  head?_eq : nodes.head? = some (.codec c)
  nodup : nodes.Nodup
  mem_tail : ∀ n, n ∈ nodes.tail ↔ ∃ x, Child s.dag.children c x ∧ s.Uncovers c x n
  /-- A node comes before another one if it is uncovered for an earlier child. -/
  pairwise_tail : nodes.tail.Pairwise fun n m => ∃ x, Child s.dag.children c x ∧
    s.Uncovers c x n ∧ ∀ y, s.Uncovers c y m →
      (s.dag.childrenOf c).idxOf x < (s.dag.childrenOf c).idxOf y

/-- The codec is named first, and then what is shown for each of its children. -/
theorem levelNodes_expandLevel (hs : s.Sound) : s.LevelNodes c (s.expandLevel f c).2 where
  head?_eq := rfl
  nodup := nodup_expandLevel_nodes hs
  mem_tail n := by
    rw [expandLevel_nodes, List.tail_cons, List.mem_eraseDups, List.mem_map]
    exact exists_congr fun x => and_congr_right fun _ => levelNode_eq_iff
  pairwise_tail := by
    rw [expandLevel_nodes, List.tail_cons]
    refine pairwise_of_idxOf (nodup_eraseDups _) fun n _ m _ hlt => ?_
    obtain ⟨x, hx, hn, hbefore⟩ := exists_idxOf_lt_of_map (idxOf_lt_of_eraseDups hlt)
    exact ⟨x, hx, levelNode_eq_iff.1 hn, fun y hy => hbefore y (levelNode_eq_iff.2 hy)⟩

/-! ## One level -/

/-- What showing one level leaves behind. -/
structure ExpandsLevel (s : Scene) (f : Folding) (c : CodecId) (f' : Folding) : Prop where
  self_open : f'.codecCollapsed c = false
  self_visible : f'.codecVisible c = f.codecVisible c
  near_visible : ∀ x, Child s.dag.children c x → ¬s.Foreign c x → f'.codecVisible x
  foreign_visible : ∀ x, Child s.dag.children c x → s.Foreign c x →
    f'.codecVisible x = f.codecVisible x
  /-- A child with children is collapsed, foreign or not. -/
  parent_collapsed : ∀ x, Child s.dag.children c x → (∃ y, Child s.dag.children x y) →
    f'.codecCollapsed x
  leaf_collapsed : ∀ x, Child s.dag.children c x → (¬∃ y, Child s.dag.children x y) →
    f'.codecCollapsed x = f.codecCollapsed x
  graph_shown : ∀ g, (∃ x, Child s.dag.children c x ∧ s.Foreign c x ∧
    s.pipeline.owner? x = some g) → f'.graphVisible g ∧ f'.graphCollapsed g
  codec_other : ∀ x, x ≠ c → ¬Child s.dag.children c x → f'.codec? x = f.codec? x
  graph_other : ∀ g, (¬∃ x, Child s.dag.children c x ∧ s.Foreign c x ∧
    s.pipeline.owner? x = some g) → f'.graph? g = f.graph? g

section Sound

variable (hs : s.Sound) (hf : s.Fits f)
include hs hf

/-- Where showing one level does not add to a flag, the flag is as it was. -/
theorem codecVisible_expandLevel_of_not (hnot : ¬(Child s.dag.children c x ∧ ¬s.Foreign c x)) :
    (s.expandLevel f c).1.codecVisible x = f.codecVisible x := by
  rw [Bool.eq_iff_iff, codecVisible_expandLevel hs hf, near_iff, or_iff_left hnot]

theorem codecCollapsed_expandLevel_of_not (hne : x ≠ c)
    (hnot : ¬(Child s.dag.children c x ∧ ∃ y, Child s.dag.children x y)) :
    (s.expandLevel f c).1.codecCollapsed x = f.codecCollapsed x := by
  rw [Bool.eq_iff_iff, codecCollapsed_expandLevel hs hf, or_iff_left hnot, and_iff_left hne]

theorem graph?_expandLevel_of_not (hnot : ¬s.Borders c g) :
    (s.expandLevel f c).1.graph? g = f.graph? g := by
  refine hf.graph?_eq (hf.expandLevel c) ?_ ?_
  · rw [Bool.eq_iff_iff, graphVisible_expandLevel hs hf, or_iff_left hnot]
  · rw [Bool.eq_iff_iff, graphCollapsed_expandLevel hs hf, or_iff_left hnot]

/-- Showing a level has all the effects that it is to have. -/
theorem expandsLevel_expandLevel : s.ExpandsLevel f c (s.expandLevel f c).1 where
  self_open := by
    rw [← Bool.not_eq_true, codecCollapsed_expandLevel hs hf]
    rintro (⟨-, hne⟩ | ⟨hchild, -⟩)
    · exact hne rfl
    · exact hs.ne_of_below (.single hchild) rfl
  self_visible := by
    refine codecVisible_expandLevel_of_not hs hf fun hnear => ?_
    exact hs.ne_of_below (.single hnear.1) rfl
  near_visible x hchild hnear :=
    (codecVisible_expandLevel hs hf).2 (Or.inr (near_iff.2 ⟨hchild, hnear⟩))
  foreign_visible x _ hforeign :=
    codecVisible_expandLevel_of_not hs hf fun hnear => hnear.2 hforeign
  parent_collapsed x hchild hparent :=
    (codecCollapsed_expandLevel hs hf).2 (Or.inr ⟨hchild, hparent⟩)
  -- only the codec itself and children that have children change how they are folded
  leaf_collapsed x hchild hleaf := by
    have hne : x ≠ c := hs.ne_of_below (.single hchild)
    exact codecCollapsed_expandLevel_of_not hs hf hne fun hparent => hleaf hparent.2
  graph_shown g hg := by
    have hborders : s.Borders c g := borders_iff.2 hg
    refine ⟨?_, ?_⟩
    · exact (graphVisible_expandLevel hs hf).2 (Or.inr hborders)
    · exact (graphCollapsed_expandLevel hs hf).2 (Or.inr hborders)
  codec_other x hne hnot := by
    refine hf.codec?_eq (hf.expandLevel c) ?_ ?_
    · exact codecVisible_expandLevel_of_not hs hf fun hnear => hnot hnear.1
    · exact codecCollapsed_expandLevel_of_not hs hf hne fun hparent => hnot hparent.1
  graph_other g hnot := graph?_expandLevel_of_not hs hf (mt borders_iff.1 hnot)

end Sound

/-- Showing one level below a codec of a pipeline succeeds, whatever the states of the nodes. -/
theorem expand_level_effect {t : Trace} {settings : Settings}
    (hbuild : Scene.build t settings = .ok s) (hf : s.Fits f)
    (hc : c.index < s.pipeline.codecs.size) : ∃ f' nodes,
      s.apply f (.expand c) = .ok (f', nodes) ∧ s.Fits f' ∧ s.ExpandsLevel f c f' ∧
        s.LevelNodes c nodes := by
  have hs := sound_of_build hbuild
  refine ⟨(s.expandLevel f c).1, (s.expandLevel f c).2, apply_of_step (.expandLevel hc), ?_, ?_, ?_⟩
  · exact hf.expandLevel c
  · exact expandsLevel_expandLevel hs hf
  · exact levelNodes_expandLevel hs

/-- Six codecs, of which the first feeds the next four.  It shares a graph with one of these;
    another graph owns two of them, and no graph the one that is left, which feeds the last
    codec. -/
def fan : Trace where
  codecs := [
    { name := "split", inputs := [⟨0⟩], outputs := [⟨1⟩, ⟨2⟩, ⟨3⟩, ⟨4⟩] },
    { name := "free", inputs := [⟨1⟩], outputs := [⟨5⟩] },
    { name := "left", inputs := [⟨2⟩] },
    { name := "own", inputs := [⟨3⟩] },
    { name := "right", inputs := [⟨4⟩], outputs := [⟨6⟩] },
    { name := "deep", inputs := [⟨5⟩, ⟨6⟩] }]
  streams := List.replicate 7 {}
  graphs := [
    { kind := "function", codecs := [⟨0⟩, ⟨3⟩] },
    { kind := "function", codecs := [⟨2⟩, ⟨4⟩] },
    { kind := "function", codecs := [⟨5⟩] }]

/-- Only the first codec and the other codec of its graph are collapsed, and nothing else than
    the first codec and the last one is on screen. -/
def packed (p : Pipeline) : Folding :=
  (((unfolded p).moveCodecs .collapse [⟨0⟩, ⟨3⟩]).moveCodecs .hide
    [⟨1⟩, ⟨2⟩, ⟨3⟩, ⟨4⟩]).moveGraphs .hide [⟨0⟩, ⟨1⟩, ⟨2⟩]

/-- The graph that owns two of the children is looked at once, in place of the first one. -/
theorem expand_level_effect_fan : ∃ s f f' nodes, Scene.build fan {} = .ok s ∧
    f = packed s.pipeline ∧ s.Fits f ∧ s.apply f (.expand ⟨0⟩) = .ok (f', nodes) ∧
    s.ExpandsLevel f ⟨0⟩ f' ∧ s.LevelNodes ⟨0⟩ nodes ∧
    nodes = [.codec ⟨0⟩, .codec ⟨1⟩, .graph ⟨1⟩, .codec ⟨3⟩] := by
  have hrun : (Scene.build fan {}).toOption.any (fun s =>
      (s.apply (packed s.pipeline) (.expand ⟨0⟩)).toOption.any fun r =>
        r.2 = [.codec ⟨0⟩, .codec ⟨1⟩, .graph ⟨1⟩, .codec ⟨3⟩]) = true := by
    decide +kernel
  obtain ⟨s, hs, hq⟩ := exists_of_any_toOption hrun
  obtain ⟨r, hr, hnodes⟩ := exists_of_any_toOption hq
  have hf : s.Fits (packed s.pipeline) :=
    (((Regular.unfolded (sound_of_build hs)).toFits.moveCodecs _ _).moveCodecs _ _).moveGraphs _ _
  have hknown : (⟨0⟩ : CodecId).index < s.pipeline.codecs.size := by
    rw [size_codecs_of_build hs]
    decide
  obtain ⟨f', nodes, happly, -, hlevel, hfocus⟩ := expand_level_effect hs hf hknown
  obtain rfl := Except.ok.inj (hr.symm.trans happly)
  exact ⟨s, _, f', nodes, hs, rfl, hf, happly, hlevel, hfocus, of_decide_eq_true hnodes⟩

end TraceFold.Scene
