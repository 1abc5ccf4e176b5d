/-
  TraceFold.Proofs.Picture.Projection

  The picture is the projection of the streams (`IsProjection`).  Of every scene that is
  built there is a picture, however its nodes are folded: no proxy is ever missing or
  found twice.  Each stream that is to be shown is listed once, on the edge between the
  two nodes that stand for its codecs, and nothing else is listed.
-/

import TraceFold.Proofs.Picture.Pick

namespace TraceFold

variable {s : Scene} {f : Folding} {i : StreamId} {u v c : CodecId} {g : GraphId}

/-- The nodes that an edge of the picture joins. -/
def PictureEdge.ends (e : PictureEdge) : NodeId × NodeId :=
  (e.source, e.target)

namespace Scene

/-! ## Codecs and streams in order -/

namespace Sound

variable (h : s.Sound)
include h

/-- The order of the codecs lists all streams that are drawn. -/
theorem mem_streamsInOrder {x : Stream} :
    (x, u, v) ∈ s.streamsInOrder ↔
      s.pipeline.Draws x.id u v ∧ s.pipeline.stream? x.id = some x := by
  simp only [streamsInOrder, List.mem_flatMap]
  refine ⟨?_, ?_⟩
  · -- an output that is drawn is drawn from the codec that lists it
    rintro ⟨c, -, hx⟩
    cases hcodec : s.pipeline.codec? c with
    | none => simp [hcodec] at hx
    | some codec =>
      simp only [hcodec, List.mem_map, Prod.mk.injEq, Prod.exists] at hx
      obtain ⟨x', v', hout, rfl, rfl, rfl⟩ := hx
      obtain ⟨j, hj, hstream, u', hends⟩ := Pipeline.mem_drawnOutputs.1 hout
      obtain ⟨w, hw⟩ := (h.lawful.mem_outputs c codec j hcodec).1 hj
      have hdraws : s.pipeline.Draws j u' v' := ⟨x', hstream, hends⟩
      obtain ⟨rfl, rfl⟩ := hw.unique hdraws
      obtain rfl := h.lawful.stream_id j x' hstream
      exact ⟨hdraws, hstream⟩
  · -- and a stream that is drawn is listed by the codec that it is drawn from
    rintro ⟨hdraws, hstream⟩
    have hlt := h.lawful.source_known x.id u v hdraws
    obtain ⟨codec, hcodec⟩ : ∃ codec, s.pipeline.codec? u = some codec :=
      ⟨_, Array.getElem?_eq_getElem hlt⟩
    have hout := (h.lawful.mem_outputs u codec x.id hcodec).2 ⟨v, hdraws⟩
    obtain ⟨x', hx', hends⟩ := hdraws
    obtain rfl := Option.some.inj (hstream.symm.trans hx')
    refine ⟨u, h.mem_order.2 hlt, ?_⟩
    simp only [hcodec, List.mem_map]
    exact ⟨(x, v), Pipeline.mem_drawnOutputs.2 ⟨x.id, hout, hstream, u, hends⟩, rfl⟩

end Sound

/-! ## The edges that are picked -/

/-- The edges that show the streams, by what each is to be shown by. -/
def shownEdges (s : Scene) (f : Folding) : List Edge :=
  (s.streamsInOrder.filterMap fun (x, u, v) => s.shown? f x.id u v).eraseDups

theorem nodup_shownEdges : (s.shownEdges f).Nodup :=
  nodup_eraseDups _

theorem Sound.picked_eq (h : s.Sound) (f : Folding) : s.picked f = .ok (s.shownEdges f) := by
  have hpicks := mapM_eq_ok (l := s.streamsInOrder)
    (f := fun (x : Stream × CodecId × CodecId) => s.pick f x.1.id x.2.1 x.2.2)
    (g := fun x => s.shown? f x.1.id x.2.1 x.2.2)
    fun (x, u, v) hx => pick_eq h.lawful (h.mem_streamsInOrder.1 hx).1
  rw [picked, hpicks]
  simp only [Except.map, shownEdges, List.filterMap_map]
  rfl

/-- The edges on screen are those that streams are shown by. -/
theorem Sound.mem_shownEdges (h : s.Sound) {e : Edge} : e ∈ s.shownEdges f ↔
    ∃ u v, s.pipeline.Draws e.stream u v ∧ s.shown? f e.stream u v = some e := by
  simp only [shownEdges, List.mem_eraseDups, List.mem_filterMap, Prod.exists]
  refine ⟨?_, ?_⟩
  · rintro ⟨x, u, v, hx, hshown⟩
    rw [stream_of_shown? hshown]
    exact ⟨u, v, (h.mem_streamsInOrder.1 hx).1, hshown⟩
  · rintro ⟨u, v, hdraws, hshown⟩
    obtain ⟨x, hx, -⟩ := id hdraws
    have hid := h.lawful.stream_id _ x hx
    rw [← hid] at hdraws hx hshown
    exact ⟨x, u, v, h.mem_streamsInOrder.2 ⟨hdraws, hx⟩, hshown⟩

/-- One edge is picked for a stream at most. -/
theorem Sound.shownEdges_inj (h : s.Sound) {e e' : Edge} (he : e ∈ s.shownEdges f)
    (he' : e' ∈ s.shownEdges f) (hstream : e.stream = e'.stream) : e = e' := by
  obtain ⟨u, v, hdraws, hshown⟩ := h.mem_shownEdges.1 he
  obtain ⟨u', v', hdraws', hshown'⟩ := h.mem_shownEdges.1 he'
  rw [← hstream] at hdraws' hshown'
  obtain ⟨rfl, rfl⟩ := hdraws.unique hdraws'
  exact Option.some.inj (hshown.symm.trans hshown')

/-! ## Merging -/

/-- The edges between two nodes are merged into the first one of them. -/
theorem mergeBetween?_eq_some {edges : List Edge} {pair : NodeId × NodeId} {b : PictureEdge} :
    s.mergeBetween? edges pair = some b ↔ ∃ first others,
      (edges.filter fun e => e.ends == pair) = first :: others ∧ b = s.merge first others := by
  unfold mergeBetween?
  cases edges.filter fun e => e.ends == pair with
  | nil => simp
  | cons first others => simp [eq_comm]

/-- Edges between two nodes are merged into one that joins these nodes and lists the
    streams of all of them. -/
theorem mergeBetween?_spec {edges : List Edge} {e : Edge} (he : e ∈ edges) :
    ∃ b, s.mergeBetween? edges e.ends = some b ∧ b.ends = e.ends ∧
      b.streams = (edges.filter fun e' => e'.ends == e.ends).map Edge.stream := by
  have hmem : e ∈ edges.filter fun e' => e'.ends == e.ends := List.mem_filter.2 ⟨he, by simp⟩
  obtain ⟨first, others, hfilter⟩ := List.exists_cons_of_ne_nil (List.ne_nil_of_mem hmem)
  have hfirst : first ∈ edges.filter fun e' => e'.ends == e.ends := by
    rw [hfilter]
    exact List.mem_cons_self
  have hends : first.ends = e.ends := by simpa using (List.mem_filter.1 hfirst).2
  refine ⟨_, mergeBetween?_eq_some.2 ⟨first, others, hfilter, rfl⟩, hends, ?_⟩
  rw [hfilter]
  rfl

/-- Merging keeps the pairs of nodes in order, and each once. -/
theorem map_ends_coalesce (edges : List Edge) :
    (s.coalesce edges).map PictureEdge.ends = (edges.map Edge.ends).eraseDups := by
  refine map_filterMap_eq fun pair hpair => ?_
  obtain ⟨e, he, rfl⟩ := List.mem_map.1 (List.mem_eraseDups.1 hpair)
  obtain ⟨b, hb, hends, -⟩ := mergeBetween?_spec (s := s) he
  exact ⟨b, hb, hends⟩

theorem mem_coalesce {edges : List Edge} {b : PictureEdge} : b ∈ s.coalesce edges ↔
    ∃ e ∈ edges, s.mergeBetween? edges e.ends = some b := by
  simp only [coalesce, List.mem_filterMap, List.mem_eraseDups, List.mem_map]
  refine ⟨?_, ?_⟩
  · rintro ⟨-, ⟨e, he, rfl⟩, hb⟩
    exact ⟨e, he, hb⟩
  · rintro ⟨e, he, hb⟩
    exact ⟨e.ends, ⟨e, he, rfl⟩, hb⟩

/-- An edge of the picture lists the streams of all edges between its nodes. -/
theorem exists_of_mem_coalesce {edges : List Edge} {b : PictureEdge} (hb : b ∈ s.coalesce edges) :
    (∃ e ∈ edges, e.ends = b.ends) ∧
      b.streams = (edges.filter fun e => e.ends == b.ends).map Edge.stream := by
  obtain ⟨e, he, hmerge⟩ := mem_coalesce.1 hb
  obtain ⟨b', hmerge', hends, hstreams⟩ := mergeBetween?_spec (s := s) he
  obtain rfl := Option.some.inj (hmerge.symm.trans hmerge')
  rw [hends]
  exact ⟨⟨e, he, rfl⟩, hstreams⟩

/-- An edge of the picture has the identifier of one that it stands for. -/
theorem exists_id_of_mem_coalesce {edges : List Edge} {b : PictureEdge}
    (hb : b ∈ s.coalesce edges) : ∃ e ∈ edges, e.ends = b.ends ∧ e.id = b.id := by
  obtain ⟨e, -, hmerge⟩ := mem_coalesce.1 hb
  obtain ⟨first, others, hfilter, rfl⟩ := mergeBetween?_eq_some.1 hmerge
  have hfirst : first ∈ edges.filter fun e' => e'.ends == e.ends := by
    rw [hfilter]
    exact List.mem_cons_self
  exact ⟨first, (List.mem_filter.1 hfirst).1, rfl, rfl⟩

/-- A stream is listed on the edges between the nodes that an edge of it joins. -/
theorem mem_streams_of_mem_coalesce {edges : List Edge} {b : PictureEdge}
    (hb : b ∈ s.coalesce edges) :
    i ∈ b.streams ↔ ∃ e ∈ edges, e.ends = b.ends ∧ e.stream = i := by
  rw [(exists_of_mem_coalesce hb).2]
  simp [and_assoc]

/-! ## Nodes -/

/-- The node that stands for a codec is on screen. -/
theorem Sound.mem_visibleNodes (h : s.Sound) (hc : c.index < s.pipeline.codecs.size) {n : NodeId}
    (hn : s.rep? f c = some n) : n ∈ s.visibleNodes f := by
  refine List.mem_eraseDups.2 (List.mem_flatMap.2 ⟨c, h.mem_order.2 hc, ?_⟩)
  unfold nodesOf
  by_cases hvisible : f.codecVisible c
  · obtain rfl : NodeId.codec c = n := by simpa [rep?, hvisible] using hn
    simp [hvisible]
  · obtain ⟨g, hg, rfl⟩ : ∃ g, s.visibleOwner? f c = some g ∧ NodeId.graph g = n := by
      simpa [rep?, hvisible] using hn
    simp [hg]

theorem rep?_eq_codec (h : s.rep? f u = some (.codec c)) : c = u ∧ f.codecVisible u := by
  by_cases hvisible : f.codecVisible u
  · obtain rfl : u = c := by simpa [rep?, hvisible] using h
    exact ⟨rfl, hvisible⟩
  · simp [rep?, hvisible] at h

theorem rep?_eq_graph (h : s.rep? f u = some (.graph g)) :
    f.codecVisible u = false ∧ s.pipeline.owner? u = some g ∧ f.graphVisible g := by
  by_cases hvisible : f.codecVisible u
  · simp [rep?, hvisible] at h
  · have hg : s.visibleOwner? f u = some g := by simpa [rep?, hvisible] using h
    exact ⟨by simpa using hvisible, visibleOwner?_eq_some.1 hg⟩

/-! ## The projection -/

/-- A picture that shows the streams of a scene as they are to be shown. -/
structure IsProjection (s : Scene) (f : Folding) (p : Picture) : Prop where
  /-- A stream that is to be shown is listed on one edge, once, and the edge joins the
      nodes that stand for its codecs. -/
  shown : ∀ i u v, s.pipeline.Draws i u v → s.Represented f u v →
    ∃ e ∈ p.edges, e.streams.count i = 1 ∧ (∀ e' ∈ p.edges, i ∈ e'.streams → e' = e) ∧
      s.rep? f u = some e.source ∧ s.rep? f v = some e.target
  listed : ∀ e ∈ p.edges, ∀ i ∈ e.streams,
    ∃ u v, s.pipeline.Draws i u v ∧ s.Represented f u v
  streams_ne_nil : ∀ e ∈ p.edges, e.streams ≠ []
  nodup_ends : (p.edges.map PictureEdge.ends).Nodup
  no_loop : ∀ e ∈ p.edges, e.source ≠ e.target
  /-- No edge joins a graph with a codec that it owns. -/
  no_inner : ∀ e ∈ p.edges, ∀ c g, s.pipeline.owner? c = some g →
    e.ends ≠ (.graph g, .codec c) ∧ e.ends ≠ (.codec c, .graph g)
  ends_mem : ∀ e ∈ p.edges, e.source ∈ p.nodes ∧ e.target ∈ p.nodes

/-- Two different nodes stand for the codecs of a stream that is shown, and neither owns
    the other. -/
theorem Sound.ends_apart (h : s.Sound) (hd : s.pipeline.Draws i u v) (hr : s.Represented f u v)
    {n m : NodeId} (hn : s.rep? f u = some n) (hm : s.rep? f v = some m) :
    n ≠ m ∧ ∀ c g, s.pipeline.owner? c = some g →
      (n, m) ≠ (.graph g, .codec c) ∧ (n, m) ≠ (.codec c, .graph g) := by
  refine ⟨?_, fun c g hown => ⟨?_, ?_⟩⟩
  · -- one node stands for both: the stream would be a loop, or run inside a graph
    rintro rfl
    cases n with
    | codec w =>
      obtain ⟨rfl, -⟩ := rep?_eq_codec hn
      obtain ⟨rfl, -⟩ := rep?_eq_codec hm
      exact h.sorted.acyclic w (.single (h.child_iff.2 ⟨i, hd⟩))
    | graph g =>
      obtain ⟨hhidden, hu, -⟩ := rep?_eq_graph hn
      obtain ⟨-, hv, -⟩ := rep?_eq_graph hm
      exact hr.not_inside ⟨⟨g, hu, hv⟩, Or.inl hhidden⟩
  · intro heq
    obtain ⟨rfl, rfl⟩ := Prod.mk.inj heq
    obtain ⟨hhidden, hu, -⟩ := rep?_eq_graph hn
    obtain ⟨rfl, -⟩ := rep?_eq_codec hm
    exact hr.not_inside ⟨⟨g, hu, hown⟩, Or.inl hhidden⟩
  · intro heq
    obtain ⟨rfl, rfl⟩ := Prod.mk.inj heq
    obtain ⟨rfl, -⟩ := rep?_eq_codec hn
    obtain ⟨hhidden, hv, -⟩ := rep?_eq_graph hm
    exact hr.not_inside ⟨⟨g, hown, hv⟩, Or.inr hhidden⟩

/-- What is known of an edge of the picture: the stream it was made for, and the nodes
    that stand for its codecs. -/
theorem Sound.exists_of_mem_edges (h : s.Sound) {b : PictureEdge}
    (hb : b ∈ s.coalesce (s.shownEdges f)) : ∃ i u v, s.pipeline.Draws i u v ∧
      s.Represented f u v ∧ s.rep? f u = some b.source ∧ s.rep? f v = some b.target := by
  obtain ⟨⟨e, he, hends⟩, -⟩ := exists_of_mem_coalesce hb
  obtain ⟨u, v, hdraws, hshown⟩ := h.mem_shownEdges.1 he
  obtain ⟨hr, n, m, hn, hm, heq⟩ := shown?_eq_some.1 hshown
  rw [heq, joining_ends] at hends
  obtain ⟨rfl, rfl⟩ := Prod.mk.inj hends
  exact ⟨e.stream, u, v, hdraws, hr, hn, hm⟩

theorem Sound.count_streams (h : s.Sound) {b : PictureEdge}
    (hb : b ∈ s.coalesce (s.shownEdges f)) (hi : i ∈ b.streams) : b.streams.count i = 1 := by
  -- no two of the edges that were merged carry the same stream
  refine List.count_eq_one_of_mem ?_ hi
  rw [(exists_of_mem_coalesce hb).2]
  refine List.Nodup.map_on (fun e he e' he' hstream => ?_) (nodup_shownEdges.filter _)
  exact h.shownEdges_inj (List.mem_filter.1 he).1 (List.mem_filter.1 he').1 hstream

/-- A stream that is to be shown is listed by an edge between the nodes that stand for its
    codecs. -/
theorem Sound.exists_edge (h : s.Sound) (hd : s.pipeline.Draws i u v) (hr : s.Represented f u v) :
    ∃ b ∈ s.coalesce (s.shownEdges f), i ∈ b.streams ∧
      s.rep? f u = some b.source ∧ s.rep? f v = some b.target := by
  obtain ⟨e, hshown⟩ := exists_shown? hr
  obtain ⟨-, n, m, hn, hm, rfl⟩ := shown?_eq_some.1 hshown
  have he : joining i n m ∈ s.shownEdges f := by
    refine h.mem_shownEdges.2 ⟨u, v, ?_⟩
    rw [joining_stream]
    exact ⟨hd, hshown⟩
  obtain ⟨b, hmerge, hends, -⟩ := mergeBetween?_spec (s := s) he
  have hb : b ∈ s.coalesce (s.shownEdges f) := mem_coalesce.2 ⟨_, he, hmerge⟩
  refine ⟨b, hb, (mem_streams_of_mem_coalesce hb).2 ⟨_, he, hends.symm, joining_stream i n m⟩, ?_⟩
  rw [joining_ends] at hends
  obtain ⟨rfl, rfl⟩ := Prod.mk.inj hends
  exact ⟨hn, hm⟩

/-- The merged edges on screen show every stream as it is to be shown. -/
theorem Sound.isProjection (h : s.Sound) (f : Folding) :
    s.IsProjection f { nodes := s.visibleNodes f, edges := s.coalesce (s.shownEdges f) } where
  shown i u v hd hr := by
    obtain ⟨b, hb, hi, hsource, htarget⟩ := h.exists_edge hd hr
    refine ⟨b, hb, h.count_streams hb hi, fun b' hb' hi' => ?_, hsource, htarget⟩
    -- both list an edge of the stream, of which there is one, so they join the same nodes
    obtain ⟨e, he, hends, hstream⟩ := (mem_streams_of_mem_coalesce hb).1 hi
    obtain ⟨e', he', hends', hstream'⟩ := (mem_streams_of_mem_coalesce hb').1 hi'
    obtain rfl := h.shownEdges_inj he he' (hstream.trans hstream'.symm)
    have hnodup : ((s.coalesce (s.shownEdges f)).map PictureEdge.ends).Nodup := by
      rw [map_ends_coalesce]
      exact nodup_eraseDups _
    exact List.inj_on_of_nodup_map hnodup hb' hb (hends'.symm.trans hends)
  listed b hb i hi := by
    obtain ⟨e, he, -, rfl⟩ := (mem_streams_of_mem_coalesce hb).1 hi
    obtain ⟨u, v, hdraws, hshown⟩ := h.mem_shownEdges.1 he
    exact ⟨u, v, hdraws, (shown?_eq_some.1 hshown).1⟩
  streams_ne_nil b hb := by
    obtain ⟨e, he, hends⟩ := (exists_of_mem_coalesce hb).1
    exact List.ne_nil_of_mem ((mem_streams_of_mem_coalesce hb).2 ⟨e, he, hends, rfl⟩)
  nodup_ends := by
    rw [map_ends_coalesce]
    exact nodup_eraseDups _
  no_loop b hb := by
    obtain ⟨i, u, v, hd, hr, hsource, htarget⟩ := h.exists_of_mem_edges hb
    exact (h.ends_apart hd hr hsource htarget).1
  no_inner b hb := by
    obtain ⟨i, u, v, hd, hr, hsource, htarget⟩ := h.exists_of_mem_edges hb
    exact (h.ends_apart hd hr hsource htarget).2
  ends_mem b hb := by
    obtain ⟨i, u, v, hd, -, hsource, htarget⟩ := h.exists_of_mem_edges hb
    exact ⟨h.mem_visibleNodes (h.lawful.source_known i u v hd) hsource,
      h.mem_visibleNodes (h.lawful.target_known i u v hd) htarget⟩

/-- The picture of a folded scene, by what each stream is to be shown by. -/
def shownPicture (s : Scene) (f : Folding) : Picture where
  nodes := s.visibleNodes f
  edges := s.coalesce (s.shownEdges f)

theorem Sound.picture_eq (h : s.Sound) (f : Folding) : s.picture f = .ok (s.shownPicture f) := by
  rw [picture, h.picked_eq]
  rfl

/-- However the nodes of a scene are folded, there is a picture of it, which shows every
    stream as it is to be shown. -/
theorem picture_isProjection {t : Trace} {settings : Settings}
    (h : Scene.build t settings = .ok s) (f : Folding) :
    ∃ p, s.picture f = .ok p ∧ s.IsProjection f p := by
  have hsound := sound_of_build h
  refine ⟨_, ?_, hsound.isProjection f⟩
  rw [picture, hsound.picked_eq]
  rfl

/-- The diamond with the codec of its graph hidden, and the graph collapsed. -/
def diamondFolded : Folding :=
  ⟨#[{}, { visible := false }, {}, {}], #[{ collapsed := true }]⟩

/-- The graph stands for its hidden codec: the streams of this one go to the graph and come
    from it, and the others keep their own edges. -/
theorem picture_diamond : ∃ s p, Scene.build diamond {} = .ok s ∧
    s.picture diamondFolded = .ok p ∧ s.IsProjection diamondFolded p ∧
    p.nodes = [.codec ⟨0⟩, .graph ⟨0⟩, .codec ⟨2⟩, .codec ⟨3⟩] ∧
    p.edges.map (fun b => (b.source, b.target, b.streams)) = [
      (.codec ⟨0⟩, .graph ⟨0⟩, [⟨1⟩]), (.codec ⟨0⟩, .codec ⟨2⟩, [⟨2⟩]),
      (.graph ⟨0⟩, .codec ⟨3⟩, [⟨3⟩]), (.codec ⟨2⟩, .codec ⟨3⟩, [⟨4⟩])] := by
  have hrun : (Scene.build diamond {}).toOption.any (fun s =>
      (s.picture diamondFolded).toOption.any fun p =>
        p.nodes = [.codec ⟨0⟩, .graph ⟨0⟩, .codec ⟨2⟩, .codec ⟨3⟩] &&
        p.edges.map (fun b => (b.source, b.target, b.streams)) = [
          (.codec ⟨0⟩, .graph ⟨0⟩, [⟨1⟩]), (.codec ⟨0⟩, .codec ⟨2⟩, [⟨2⟩]),
          (.graph ⟨0⟩, .codec ⟨3⟩, [⟨3⟩]), (.codec ⟨2⟩, .codec ⟨3⟩, [⟨4⟩])]) = true := by
    decide +kernel
  obtain ⟨s, hs, hq⟩ := exists_of_any_toOption hrun
  obtain ⟨p, hp, hq⟩ := exists_of_any_toOption hq
  simp only [Bool.and_eq_true, decide_eq_true_eq] at hq
  obtain ⟨p', hp', hprojection⟩ := picture_isProjection hs diamondFolded
  obtain rfl := Except.ok.inj (hp.symm.trans hp')
  exact ⟨s, p, hs, hp, hprojection, hq⟩

end Scene

end TraceFold
