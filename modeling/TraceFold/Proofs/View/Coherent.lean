/-
  TraceFold.Proofs.View.Coherent

  The view can be read by its texts alone (`Coherent`).  However the nodes of a scene are
  folded, every node of the picture is described once and in its place, no two nodes and
  no two edges share an identifier, every edge ends at two nodes of the view, and whatever
  is looked up by its text is what has that text.
-/

import TraceFold.Proofs.Folding.Effect
import TraceFold.Proofs.Id.Text
import TraceFold.Proofs.Picture.Order
import TraceFold.Proofs.Scene.NormalForm

namespace TraceFold

/-- Whether a node is marked as on screen. -/
def NodeView.visible : NodeView → Bool
  | .codec v => v.visible
  | .graph v => v.visible

/-- The identifiers of the nodes that an edge of the view joins. -/
def EdgeView.ends (e : EdgeView) : String × String :=
  (e.source, e.target)

namespace Scene

variable {t : Trace} {settings : Settings} {s : Scene} {f : Folding} {p : Picture} {v : View}
  {n : NodeId} {x : NodeView} {g : GraphId}

/-- A view that describes a picture, in which every text stands for one thing. -/
structure Coherent (s : Scene) (f : Folding) (p : Picture) (v : View) : Prop where
  /-- One node for each of the picture, in the same order. -/
  nodes_eq : v.nodes.map some = p.nodes.map (s.nodeView? f)
  ids_eq : v.nodes.map NodeView.id = p.nodes.map NodeId.text
  edges_eq : v.edges = p.edges.map edgeView
  nodup_ids : (v.nodes.map NodeView.id).Nodup
  nodup_edgeIds : (v.edges.map EdgeView.id).Nodup
  nodup_ends : (v.edges.map EdgeView.ends).Nodup
  source_mem : ∀ e ∈ v.edges, ∃! x, x ∈ v.nodes ∧ x.id = e.source
  target_mem : ∀ e ∈ v.edges, ∃! x, x ∈ v.nodes ∧ x.id = e.target
  visible : ∀ x ∈ v.nodes, x.visible
  node?_eq : ∀ id x, v.node? id = some x ↔ x ∈ v.nodes ∧ x.id = id
  edgeBetween?_eq : ∀ source target e, v.edgeBetween? source target = some e ↔
    e ∈ v.edges ∧ e.source = source ∧ e.target = target

/-! ## Nodes -/

theorem id_of_graph?_tables {graph : Graph} (hgraph : t.tables.graph? g = some graph) :
    graph.id = g := by
  obtain ⟨r, -, rfl⟩ := Option.map_eq_some_iff.1 ((Trace.graph?_tables t g).symm.trans hgraph)
  rfl

/-- What describes a node has the node's text and says whether it is visible. -/
theorem nodeView?_spec (hbuild : Scene.build t settings = .ok s) (hx : s.nodeView? f n = some x) :
    x.id = n.text ∧ x.visible = f.nodeVisible n := by
  obtain ⟨-, hpipeline, -, -⟩ := build_eq_ok hbuild
  cases n with
  | codec c =>
    obtain ⟨codec, hcodec, rfl⟩ := Option.map_eq_some_iff.1 hx
    have hid : codec.id = c := id_of_codec?_tables (hpipeline ▸ hcodec)
    simp only [NodeView.id, NodeView.visible, codecView, hid]
    exact ⟨rfl, rfl⟩
  | graph g =>
    obtain ⟨graph, hgraph, rfl⟩ := Option.map_eq_some_iff.1 hx
    have hid : graph.id = g := id_of_graph?_tables (hpipeline ▸ hgraph)
    simp only [NodeView.id, NodeView.visible, graphView, hid]
    exact ⟨rfl, rfl⟩

/-- There is a description of every node on screen. -/
theorem Sound.exists_nodeView? (hs : s.Sound) (hn : n ∈ s.visibleNodes f) :
    ∃ x, s.nodeView? f n = some x := by
  obtain ⟨-, c, hc, hbrings⟩ := hs.mem_visibleNodes_iff.1 hn
  cases n with
  | codec d =>
    obtain rfl : c = d := hbrings
    exact ⟨_, Option.map_eq_some_iff.2 ⟨_, Array.getElem?_eq_getElem hc, rfl⟩⟩
  | graph g =>
    obtain ⟨graph, hgraph, -⟩ := hs.graph_known hbrings
    exact ⟨_, Option.map_eq_some_iff.2 ⟨graph, hgraph, rfl⟩⟩

/-! ## Edges -/

/-- Edges of the picture with one identifier are one edge: it was picked for one stream. -/
theorem Sound.edge_id_inj (hs : s.Sound) {b b' : PictureEdge}
    (hb : b ∈ (s.shownPicture f).edges) (hb' : b' ∈ (s.shownPicture f).edges)
    (hid : b.id = b'.id) : b = b' := by
  obtain ⟨e, he, hends, heid⟩ := exists_id_of_mem_coalesce hb
  obtain ⟨e', he', hends', heid'⟩ := exists_id_of_mem_coalesce hb'
  -- an edge's identifier tells its stream, and each stream is shown by one edge
  have hstream : e.stream = e'.stream := by
    rw [Edge.stream, Edge.stream, heid, heid', hid]
  obtain rfl := hs.shownEdges_inj he he' hstream
  exact List.inj_on_of_nodup_map (hs.isProjection f).nodup_ends hb hb' (hends.symm.trans hends')

theorem Sound.nodup_map_edge_id (hs : s.Sound) (f : Folding) :
    ((s.shownPicture f).edges.map PictureEdge.id).Nodup :=
  (hs.isProjection f).nodup_ends.of_map.map_on fun _ hb _ hb' => hs.edge_id_inj hb hb'

/-! ## The view -/

/-- Every scene that is folded has a view, as it has a picture. -/
theorem Sound.view_eq (hs : s.Sound) (f : Folding) :
    s.view f = .ok (s.viewOf f (s.shownPicture f)) := by
  rw [view, hs.picture_eq]
  rfl

section Shown

variable (hbuild : Scene.build t settings = .ok s)
include hbuild

theorem ids_viewOf (f : Folding) :
    (s.viewOf f (s.shownPicture f)).nodes.map NodeView.id = (s.visibleNodes f).map NodeId.text := by
  refine map_filterMap_eq_map fun n hn => ?_
  obtain ⟨x, hx⟩ := (sound_of_build hbuild).exists_nodeView? hn
  exact ⟨x, hx, (nodeView?_spec hbuild hx).1⟩

/-- No two nodes of a view have the same identifier. -/
theorem nodup_ids_viewOf (f : Folding) :
    ((s.viewOf f (s.shownPicture f)).nodes.map NodeView.id).Nodup := by
  rw [ids_viewOf hbuild]
  exact nodup_visibleNodes.map fun _ _ => NodeId.text_inj.1

/-- The text of a node on screen is the identifier of one node of the view. -/
theorem existsUnique_node (hn : n ∈ s.visibleNodes f) :
    ∃! x, x ∈ (s.viewOf f (s.shownPicture f)).nodes ∧ x.id = n.text := by
  obtain ⟨x, hx⟩ := (sound_of_build hbuild).exists_nodeView? hn
  have hid := (nodeView?_spec hbuild hx).1
  have hmem : x ∈ (s.viewOf f (s.shownPicture f)).nodes := List.mem_filterMap.2 ⟨n, hn, hx⟩
  -- another node with this text would share its identifier
  refine ⟨x, ⟨hmem, hid⟩, fun y hy => ?_⟩
  exact List.inj_on_of_nodup_map (nodup_ids_viewOf hbuild f) hy.1 hmem (hy.2.trans hid.symm)

theorem nodup_ends_viewOf (f : Folding) :
    ((s.viewOf f (s.shownPicture f)).edges.map EdgeView.ends).Nodup := by
  have hnodup := ((sound_of_build hbuild).isProjection f).nodup_ends
  -- the texts of an edge's ends are the ends of its description
  have htexts : ∀ l : List PictureEdge, (l.map edgeView).map EdgeView.ends
      = (l.map PictureEdge.ends).map (Prod.map NodeId.text NodeId.text) := by
    intro l
    rw [List.map_map, List.map_map]
    rfl
  rw [viewOf, htexts]
  have hinj : Function.Injective NodeId.text := fun _ _ => NodeId.text_inj.1
  exact hnodup.map (hinj.prodMap hinj)

/-- The view describes the picture, node by node and edge by edge. -/
theorem coherent_viewOf (f : Folding) :
    s.Coherent f (s.shownPicture f) (s.viewOf f (s.shownPicture f)) where
  nodes_eq := by
    refine map_filterMap_eq_map fun n hn => ?_
    obtain ⟨x, hx⟩ := (sound_of_build hbuild).exists_nodeView? hn
    exact ⟨x, hx, hx.symm⟩
  ids_eq := ids_viewOf hbuild f
  edges_eq := rfl
  nodup_ids := nodup_ids_viewOf hbuild f
  nodup_edgeIds := by
    have hnodup := (sound_of_build hbuild).nodup_map_edge_id f
    have htexts : ∀ l : List PictureEdge, (l.map edgeView).map EdgeView.id
        = (l.map PictureEdge.id).map EdgeId.text := by
      intro l
      rw [List.map_map, List.map_map]
      rfl
    rw [viewOf, htexts]
    exact hnodup.map fun _ _ => EdgeId.text_inj.1
  nodup_ends := nodup_ends_viewOf hbuild f
  source_mem e he := by
    obtain ⟨b, hb, rfl⟩ := List.mem_map.1 he
    exact existsUnique_node hbuild (((sound_of_build hbuild).isProjection f).ends_mem b hb).1
  target_mem e he := by
    obtain ⟨b, hb, rfl⟩ := List.mem_map.1 he
    exact existsUnique_node hbuild (((sound_of_build hbuild).isProjection f).ends_mem b hb).2
  visible x hx := by
    obtain ⟨n, hn, hview⟩ := List.mem_filterMap.1 hx
    rw [(nodeView?_spec hbuild hview).2]
    exact ((sound_of_build hbuild).mem_visibleNodes_iff.1 hn).1
  node?_eq id x := by
    rw [View.node?, find?_eq_some_iff_of_unique, beq_iff_eq]
    -- the search cannot stop at an earlier node, as no two share an identifier
    intro y hy z hz hyid hzid
    have hid : y.id = z.id := (beq_iff_eq.1 hyid).trans (beq_iff_eq.1 hzid).symm
    exact List.inj_on_of_nodup_map (nodup_ids_viewOf hbuild f) hy hz hid
  edgeBetween?_eq source target e := by
    rw [View.edgeBetween?, find?_eq_some_iff_of_unique, Bool.and_eq_true, beq_iff_eq, beq_iff_eq]
    -- nor at an earlier edge, as no two share both ends
    intro y hy z hz hyends hzends
    simp only [Bool.and_eq_true, beq_iff_eq] at hyends hzends
    have hends : y.ends = z.ends := by
      rw [EdgeView.ends, EdgeView.ends, hyends.1, hyends.2, hzends.1, hzends.2]
    exact List.inj_on_of_nodup_map (nodup_ends_viewOf hbuild f) hy hz hends

end Shown

/-- However the nodes of a scene are folded, there is a view of it that describes its
    picture, and in which every text stands for one thing. -/
theorem view_coherent (hbuild : Scene.build t settings = .ok s) (f : Folding) :
    ∃ p v, s.picture f = .ok p ∧ s.view f = .ok v ∧ s.Coherent f p v := by
  have hs := sound_of_build hbuild
  exact ⟨_, _, hs.picture_eq f, hs.view_eq f, coherent_viewOf hbuild f⟩

/-- The fork with both codecs of its graph hidden, and the graph collapsed. -/
def forkFolded : Folding :=
  ⟨#[{}, { visible := false }, {}, { visible := false }], #[{ collapsed := true }]⟩

/-- The view of the fork shows the graph between the two codecs that are left, and each of
    them joined to it. -/
theorem view_coherent_fork : ∃ s p v, Scene.build fork {} = .ok s ∧
    s.picture forkFolded = .ok p ∧ s.view forkFolded = .ok v ∧ s.Coherent forkFolded p v ∧
    v.nodes.map (·.id) = ["C0", "G0", "C2"] ∧
    v.edges.map (fun e => (e.id, e.source, e.target, e.streams)) = [
      ("proxy-C0-S1-G0", "C0", "G0", ["S1"]), ("S2", "C0", "C2", ["S2"]),
      ("proxy-C2-S3-G0", "C2", "G0", ["S3"])] := by
  have hrun : (Scene.build fork {}).toOption.any (fun s =>
      (s.view forkFolded).toOption.any fun v =>
        v.nodes.map (·.id) = ["C0", "G0", "C2"] &&
        v.edges.map (fun e => (e.id, e.source, e.target, e.streams)) = [
          ("proxy-C0-S1-G0", "C0", "G0", ["S1"]), ("S2", "C0", "C2", ["S2"]),
          ("proxy-C2-S3-G0", "C2", "G0", ["S3"])]) = true := by
    decide +kernel
  obtain ⟨s, hs, hq⟩ := exists_of_any_toOption hrun
  obtain ⟨v, hv, hq⟩ := exists_of_any_toOption hq
  simp only [Bool.and_eq_true, decide_eq_true_eq] at hq
  obtain ⟨p, v', hp, hv', hcoherent⟩ := view_coherent hs forkFolded
  obtain rfl := Except.ok.inj (hv.symm.trans hv')
  exact ⟨s, p, v, hs, hp, hv, hcoherent, hq⟩

end Scene

end TraceFold
