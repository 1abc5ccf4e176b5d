/-
  TraceFold.Proofs.Picture.Highlight

  What is highlighted.  After the pass over the path (`Pipeline.highlight`), each flag says
  whether the path comes by a certain codec, graph or edge, and nothing else
  (`highlight_eq`): no step takes back what those before it have flagged.

  The pass is over before anything is folded, so in a session the flags stay as they are.
  An edge of the picture is flagged with the streams that it stands for (`Highlighted`).
-/

import TraceFold.Proofs.Action.Session
import TraceFold.Proofs.Picture.Coalesce
import TraceFold.Proofs.View.Coherent

namespace TraceFold

variable {p : Pipeline} {s : Scene} {f : Folding}

/-! ## The pass over the path -/

namespace Pipeline

/-- The flags of a path, each by itself. -/
def flagsAlong (p : Pipeline) (path : List PathStep) : Flags where
  codecs := p.codecs.mapIdx fun i _ => path.any (·.codec == ⟨i⟩)
  graphs := p.graphs.mapIdx fun i _ => path.any fun step => p.owner? step.codec == some ⟨i⟩
  edges := p.edges.map fun e => (e, path.any (·.via == some e.stream))

theorem flagsAlong_nil : p.flagsAlong [] = p.unflagged := by
  unfold flagsAlong unflagged
  simp only [List.any_nil]
  congr 1 <;> exact Array.ext (by simp) (by simp)

/-- One more place of a table is flagged. -/
theorem setIfInBounds_mapIdx {α : Type} (xs : Array α) (q : Nat → Bool) (i : Nat) :
    (xs.mapIdx fun j _ => q j).setIfInBounds i true = xs.mapIdx fun j _ => q j || i == j := by
  refine Array.ext_getElem? fun j => ?_
  rw [Array.getElem?_setIfInBounds, Array.getElem?_mapIdx, Array.getElem?_mapIdx,
    Array.size_mapIdx]
  by_cases hij : i = j
  · subst hij
    by_cases hi : i < xs.size <;> simp [hi]
  · have hne : (i == j) = false := beq_eq_false_iff_ne.2 hij
    simp [hij, hne]

/-- One more step adds its flags to those of the steps before it. -/
theorem flagStep_flagsAlong (done : List PathStep) (step : PathStep) :
    p.flagStep (p.flagsAlong done) step = p.flagsAlong (done ++ [step]) := by
  -- a codec or a graph is found in its table at its number
  have hcodec : ∀ i, (step.codec == ⟨i⟩) = (step.codec.index == i) := fun i => by
    rw [Bool.eq_iff_iff, beq_iff_eq, beq_iff_eq, ← CodecId.index_inj]
  have hgraph : ∀ (g : GraphId) i, (some g == some ⟨i⟩) = (g.index == i) := fun g i => by
    rw [Bool.eq_iff_iff, beq_iff_eq, beq_iff_eq, Option.some.injEq, ← GraphId.index_inj]
  have hstep : ∀ q : PathStep → Bool, (done ++ [step]).any q = (done.any q || q step) := by simp
  unfold flagStep flagsAlong
  refine Flags.ext ?_ ?_ ?_
  · simp only [setIfInBounds_mapIdx, hstep, hcodec]
  · cases hown : p.owner? step.codec with
    | none => simp [hstep, hown]
    | some g => simp only [setIfInBounds_mapIdx, hstep, hown, hgraph]
  · cases hvia : step.via with
    | none => simp [hstep, hvia]
    | some i =>
      have hstream : ∀ e : Edge, (some i == some e.stream) = (e.stream == i) := fun e => by
        rw [Option.some_beq_some, BEq.comm]
      simp [hstep, hvia, hstream]

/-- After some steps, the flags are those of these steps. -/
theorem foldl_flagStep (done rest : List PathStep) :
    rest.foldl p.flagStep (p.flagsAlong done) = p.flagsAlong (done ++ rest) := by
  induction rest generalizing done with
  | nil => rw [List.append_nil, List.foldl_nil]
  | cons step rest ih =>
    rw [List.foldl_cons, flagStep_flagsAlong, ih, List.append_assoc, List.singleton_append]

/-- The pass over a path sets the flags of the path. -/
theorem highlight_eq (path : List PathStep) : p.highlight path = p.flagsAlong path := by
  rw [highlight, ← flagsAlong_nil, foldl_flagStep, List.nil_append]

end Pipeline

/-! ## The flags of a scene -/

namespace Scene

/-- The flags that are shown on the nodes of a folded scene, and those of its edges. -/
def flags (s : Scene) (f : Folding) : Flags where
  codecs := s.pipeline.codecs.map fun codec => (s.codecView f codec).marked
  graphs := s.pipeline.graphs.map fun graph => (s.graphView f graph).marked
  edges := s.pipeline.edges.map fun e => (e, s.marksEdge e)

/-- The path that is to be marked, without steps if none is. -/
def markedPath (s : Scene) : List PathStep :=
  if s.settings.markLargestPath then s.pipeline.largestPath else []

variable {t : Trace} {settings : Settings}

/-- A scene has the flags of its path. -/
theorem marks_of_build (hbuild : Scene.build t settings = .ok s) :
    s.marks = s.pipeline.flagsAlong s.markedPath := by
  unfold Scene.build at hbuild
  split at hbuild
  · cases hbuild
  · split at hbuild
    · cases hbuild
    · obtain rfl := Except.ok.inj hbuild
      unfold markedPath
      cases settings.markLargestPath with
      | true => exact Pipeline.highlight_eq _
      | false => exact Pipeline.flagsAlong_nil.symm

section Built

variable (hbuild : Scene.build t settings = .ok s)
include hbuild

/-- A codec is marked if the path goes through it. -/
theorem marksCodec_eq {c : CodecId} {codec : Codec} (hcodec : s.pipeline.codec? c = some codec) :
    s.marksCodec c = s.markedPath.any (·.codec == c) := by
  have hentry : s.pipeline.codecs[c.index]? = some codec := hcodec
  rw [marksCodec, marks_of_build hbuild, Pipeline.flagsAlong, Array.getElem?_mapIdx, hentry]
  rfl

/-- A graph is marked if the path goes through a codec that it owns. -/
theorem marksGraph_eq {g : GraphId} {graph : Graph} (hgraph : s.pipeline.graph? g = some graph) :
    s.marksGraph g = s.markedPath.any fun step => s.pipeline.owner? step.codec == some g := by
  have hentry : s.pipeline.graphs[g.index]? = some graph := hgraph
  rw [marksGraph, marks_of_build hbuild, Pipeline.flagsAlong, Array.getElem?_mapIdx, hentry]
  rfl

/-- An edge of the arena, its stream's own or a proxy, is marked if the path follows its stream. -/
theorem marksEdge_eq {e : Edge} (he : e ∈ s.pipeline.edges) :
    s.marksEdge e = s.markedPath.any (·.via == some e.stream) := by
  rw [marksEdge, marks_of_build hbuild, Pipeline.flagsAlong, List.any_map, Bool.eq_iff_iff,
    List.any_eq_true]
  simp only [Function.comp_apply, Bool.and_eq_true, beq_iff_eq]
  constructor
  · rintro ⟨e', -, rfl, hflag⟩
    exact hflag
  · intro hflag
    exact ⟨e, he, rfl, hflag⟩

/-- However a scene is folded, its flags are those that the pass over its path sets. -/
theorem flags_eq_highlight : s.flags f = s.pipeline.highlight s.markedPath := by
  obtain ⟨-, hpipeline, -, -⟩ := build_eq_ok hbuild
  rw [Pipeline.highlight_eq]
  refine Flags.ext (Array.ext_getElem? fun i => ?_) (Array.ext_getElem? fun i => ?_) ?_
  · rw [flags, Pipeline.flagsAlong, Array.getElem?_map, Array.getElem?_mapIdx]
    refine Option.map_congr fun codec hcodec => ?_
    have hid : codec.id = ⟨i⟩ := id_of_codec?_tables (hpipeline ▸ hcodec)
    rw [codecView, hid, marksCodec_eq hbuild hcodec]
  · rw [flags, Pipeline.flagsAlong, Array.getElem?_map, Array.getElem?_mapIdx]
    refine Option.map_congr fun graph hgraph => ?_
    have hid : graph.id = ⟨i⟩ := id_of_graph?_tables (hpipeline ▸ hgraph)
    rw [graphView, hid, marksGraph_eq hbuild hgraph]
  · rw [flags, Pipeline.flagsAlong]
    refine List.map_congr_left fun e he => ?_
    rw [marksEdge_eq hbuild he]

/-- An edge of the picture is marked with any of the streams that it lists. -/
theorem marked_of_mem_coalesce {b : PictureEdge} (hb : b ∈ s.coalesce (s.shownEdges f)) :
    b.marked = b.streams.any fun i => s.markedPath.any (·.via == some i) := by
  have hs := sound_of_build hbuild
  obtain ⟨e, -, hmerge⟩ := mem_coalesce.1 hb
  unfold mergeBetween? at hmerge
  split at hmerge
  · cases hmerge
  · rename_i first others hfilter
    obtain rfl := Option.some.inj hmerge
    simp only [merge, List.any_map]
    -- only edges on screen are merged, and these have their flags in the table
    rw [Bool.eq_iff_iff, List.any_eq_true, List.any_eq_true]
    refine exists_congr fun e' => and_congr_right fun he' => ?_
    have hshown : e' ∈ s.shownEdges f := by
      rw [← hfilter] at he'
      exact List.mem_of_mem_filter he'
    rw [Function.comp_apply, marksEdge_eq hbuild (hs.mem_edges_of_mem_shownEdges hshown)]

end Built

/-! ## What is highlighted -/

/-- All that a path comes by is highlighted, and nothing else. -/
structure Highlighted (s : Scene) (f : Folding) (path : List PathStep) : Prop where
  flags_eq : s.flags f = s.pipeline.highlight path
  codec_iff : ∀ c codec, s.pipeline.codec? c = some codec →
    ((s.codecView f codec).marked ↔ ∃ step ∈ path, step.codec = c)
  graph_iff : ∀ g graph, s.pipeline.graph? g = some graph →
    ((s.graphView f graph).marked ↔ ∃ step ∈ path, step.codec ∈ graph.codecs)
  edge_iff : ∀ e ∈ s.pipeline.edges,
    (s.marksEdge e ↔ ∃ step ∈ path, step.via = some e.stream)
  picture : ∃ p, s.picture f = .ok p ∧ ∀ b ∈ p.edges,
    (b.marked ↔ ∃ i ∈ b.streams, ∃ step ∈ path, step.via = some i)

/-- Nothing is highlighted. -/
structure Unlit (s : Scene) (f : Folding) : Prop where
  flags_eq : s.flags f = s.pipeline.unflagged
  picture : ∃ p, s.picture f = .ok p ∧ ∀ b ∈ p.edges, b.marked = false

theorem highlighted (hbuild : Scene.build t settings = .ok s) (f : Folding) :
    s.Highlighted f s.markedPath := by
  have hs := sound_of_build hbuild
  obtain ⟨-, hpipeline, -, -⟩ := build_eq_ok hbuild
  exact {
    flags_eq := flags_eq_highlight hbuild
    codec_iff := fun c codec hcodec => by
      have hid : codec.id = c := id_of_codec?_tables (hpipeline ▸ hcodec)
      simp [codecView, hid, marksCodec_eq hbuild hcodec]
    graph_iff := fun g graph hgraph => by
      have hid : graph.id = g := id_of_graph?_tables (hpipeline ▸ hgraph)
      -- the pass asks for the owner of a codec, not for what a graph lists
      have hmem : ∀ c, c ∈ graph.codecs ↔ s.pipeline.owner? c = some g := fun c => by
        rw [← hs.lawful.mem_members, Pipeline.members, hgraph]
        rfl
      simp [graphView, hid, marksGraph_eq hbuild hgraph, hmem]
    edge_iff := fun e he => by
      rw [marksEdge_eq hbuild he]
      simp
    picture := ⟨_, hs.picture_eq f, fun b hb => by
      rw [marked_of_mem_coalesce hbuild hb]
      simp⟩ }

theorem Highlighted.unlit (h : s.Highlighted f []) : s.Unlit f where
  flags_eq := h.flags_eq
  picture := by
    obtain ⟨p, hp, hmarked⟩ := h.picture
    refine ⟨p, hp, fun b hb => Bool.eq_false_iff.2 fun hb' => ?_⟩
    obtain ⟨-, -, step, hstep, -⟩ := (hmarked b hb).1 hb'
    exact List.not_mem_nil hstep

/-- What is highlighted in a session that started with a scene. -/
structure Highlights (s : Scene) (x : Session) : Prop where
  marking : s.settings.markLargestPath →
    x.scene.Highlighted x.folding s.pipeline.largestPath
  unmarking : s.settings.markLargestPath = false → x.scene.Unlit x.folding
  /-- No action changes a flag of a node or of an edge that can be drawn. -/
  flags_eq : x.scene.flags x.folding = s.flags s.start

/-- In every session on a scene that is built, what the path comes by is highlighted if that is
    wanted, and nothing else ever is. -/
theorem highlights_of_build (hbuild : Scene.build t settings = .ok s) {x : Session}
    (hx : Session.Reached s x) : s.Highlights x := by
  obtain ⟨rfl, -⟩ := hx.reachable
  have hlit := highlighted hbuild x.folding
  exact {
    marking := fun hon => by
      rw [markedPath, if_pos hon] at hlit
      exact hlit
    unmarking := fun hoff => by
      rw [markedPath, if_neg (Bool.eq_false_iff.1 hoff)] at hlit
      exact hlit.unlit
    flags_eq := by rw [flags_eq_highlight hbuild, flags_eq_highlight hbuild] }

/-- With its graph collapsed, the diamond has the flags that it had at the start. -/
theorem highlights_diamond : ∃ s x, Scene.build diamond {} = .ok s ∧ s.settings.markLargestPath ∧
    Session.Reached s x ∧ x.folding.graphCollapsed ⟨0⟩ ∧ s.Highlights x := by
  have hrun : (Scene.build diamond {}).toOption.any (fun s =>
      (Session.act ⟨s, s.start⟩ (.toggle (.graph ⟨0⟩))).2.folding.graphCollapsed ⟨0⟩) = true := by
    decide +kernel
  obtain ⟨s, hs, hcollapsed⟩ := exists_of_any_toOption hrun
  obtain ⟨-, -, hsettings, -⟩ := build_eq_ok hs
  have hx := (Session.Reached.start (s := s)).act (.toggle (.graph ⟨0⟩))
  exact ⟨s, _, hs, by rw [hsettings], hx, hcollapsed, highlights_of_build hs hx⟩

end Scene

end TraceFold
