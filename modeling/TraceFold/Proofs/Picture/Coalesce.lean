/-
  TraceFold.Proofs.Picture.Coalesce

  What merging edges keeps.  The streams on screen come in a fixed order: by their sources,
  and of one source as it first lists them (`StreamBefore`).  The edges that show them come
  in that order, so each edge of the picture lists its streams in it, has the identifier of
  the first one's edge, and adds up sizes and shares from there on (`StandsFor`); the edges
  themselves come in the order of their first streams.  Every stream on screen is on one
  edge, so the sizes of the edges add up to the sizes of these streams (`Coalesced`).
-/

import TraceFold.Proofs.Folding.Step
import TraceFold.Proofs.Picture.Arena
import TraceFold.Proofs.Picture.Projection
import TraceFold.Proofs.Scene.NormalForm

namespace TraceFold.Scene

open Pipeline (mem_edges mem_proxiesOf proxiesOf_in proxiesOf_out proxiesOf_across)

variable {s : Scene} {f : Folding} {i j : StreamId} {u u' v v' : CodecId} {n m : NodeId}
  {a b e first : Edge} {others l : List Edge}

/-! ## Streams in order -/

/-- A stream comes before another one: its source comes before the other's, or one source
    lists both and it first. -/
def StreamBefore (s : Scene) (i j : StreamId) : Prop :=
  ∃ u v u' v', s.pipeline.Draws i u v ∧ s.pipeline.Draws j u' v' ∧
    (s.dag.order.idxOf u < s.dag.order.idxOf u' ∨
      u = u' ∧ (s.pipeline.outputsOf u).idxOf i < (s.pipeline.outputsOf u).idxOf j)

theorem StreamBefore.ne (hlt : s.StreamBefore i j) : i ≠ j := by
  rintro rfl
  obtain ⟨u, v, u', v', hd, hd', hplace⟩ := hlt
  obtain ⟨rfl, -⟩ := hd.unique hd'
  rcases hplace with hplace | ⟨-, hplace⟩ <;> exact Nat.lt_irrefl _ hplace

/-- The edge that a stream is to be shown by, between the codecs at its ends. -/
def edgeOf? (s : Scene) (f : Folding) (i : StreamId) : Option Edge :=
  ((s.pipeline.stream? i).bind Stream.ends).bind fun (u, v) => s.shown? f i u v

theorem edgeOf?_of_draws (hd : s.pipeline.Draws i u v) : s.edgeOf? f i = s.shown? f i u v := by
  obtain ⟨x, hx, hends⟩ := hd
  simp [edgeOf?, hx, hends]

theorem stream_of_edgeOf? (he : s.edgeOf? f i = some e) : e.stream = i := by
  obtain ⟨⟨u, v⟩, -, hshown⟩ := Option.bind_eq_some_iff.1 he
  exact stream_of_shown? hshown

namespace Sound

variable (h : s.Sound)
include h

/-- Of two streams, one comes before the other. -/
theorem streamBefore_total (hd : s.pipeline.Draws i u v) (hd' : s.pipeline.Draws j u' v')
    (hne : i ≠ j) : s.StreamBefore i j ∨ s.StreamBefore j i := by
  rcases Nat.lt_trichotomy (s.dag.order.idxOf u) (s.dag.order.idxOf u') with hlt | heq | hgt
  · exact Or.inl ⟨u, v, u', v', hd, hd', Or.inl hlt⟩
  · have hmem : u ∈ s.dag.order := h.mem_order.2 (h.lawful.source_known i u v hd)
    obtain rfl : u = u' := (List.idxOf_inj hmem).1 heq
    have hout : i ∈ s.pipeline.outputsOf u := h.mem_outputsOf.2 ⟨v, hd⟩
    rcases Nat.lt_or_gt_of_ne (mt (List.idxOf_inj hout).1 hne) with hlt | hgt
    · exact Or.inl ⟨u, v, u, v', hd, hd', Or.inr ⟨rfl, hlt⟩⟩
    · exact Or.inr ⟨u, v', u, v, hd', hd, Or.inr ⟨rfl, hgt⟩⟩
  · exact Or.inr ⟨u', v', u, v, hd', hd, Or.inl hgt⟩

/-- The edges on screen are given by the outputs of the codecs. -/
theorem shownEdges_eq (f : Folding) : s.shownEdges f = (s.dag.order.flatMap fun c =>
    (s.pipeline.outputsOf c).filterMap (s.edgeOf? f)).eraseDups := by
  unfold shownEdges streamsInOrder
  rw [List.filterMap_flatMap]
  refine congrArg List.eraseDups (List.flatMap_congr fun c _ => ?_)
  unfold Pipeline.outputsOf
  cases hcodec : s.pipeline.codec? c with
  | none => rfl
  | some codec =>
    simp only [Option.map_some, Option.getD_some]
    rw [List.filterMap_map, Pipeline.drawnOutputs, List.filterMap_filterMap]
    refine List.filterMap_congr fun i hi => ?_
    obtain ⟨v, x, hx, hends⟩ := (h.lawful.mem_outputs c codec i hcodec).1 hi
    have hid := h.lawful.stream_id i x hx
    simp [hx, hends, hid, edgeOf?]

/-- An edge on screen is found before those of later streams. -/
theorem idxOf_shownEdges_lt (ha : a ∈ s.shownEdges f) (hlt : s.StreamBefore a.stream b.stream) :
    (s.shownEdges f).idxOf a < (s.shownEdges f).idxOf b := by
  obtain ⟨u, v, u', v', hd, hd', hplace⟩ := hlt
  obtain ⟨w, x, hdraws, hshown⟩ := h.mem_shownEdges.1 ha
  have hedge : s.edgeOf? f a.stream = some a := (edgeOf?_of_draws hdraws).trans hshown
  have hout : a.stream ∈ s.pipeline.outputsOf u := h.mem_outputsOf.2 ⟨v, hd⟩
  have hmem := List.mem_filterMap.2 ⟨_, hout, hedge⟩
  rw [h.shownEdges_eq] at ha ⊢
  refine idxOf_eraseDups_lt (idxOf_flatMap_lt (List.mem_eraseDups.1 ha) fun y _ hy => ?_)
  -- only the source of a stream lists it, so nothing else gives the other edge
  obtain ⟨j, hj, hedge'⟩ := List.mem_filterMap.1 hy
  obtain rfl := stream_of_edgeOf? hedge'
  obtain ⟨w', hw'⟩ := h.mem_outputsOf.1 hj
  obtain ⟨rfl, -⟩ := hd'.unique hw'
  refine ⟨u, hmem, hplace.imp_right ?_⟩
  rintro ⟨rfl, hfirst⟩
  refine ⟨rfl, ?_⟩
  rw [List.filterMap_eq_flatMap_toList] at hmem ⊢
  refine idxOf_flatMap_lt hmem fun j' _ hj' => ?_
  obtain rfl := stream_of_edgeOf? (Option.mem_toList.1 hj')
  exact ⟨a.stream, Option.mem_toList.2 hedge, Or.inl hfirst⟩

/-- The edges on screen come in the order of their streams. -/
theorem pairwise_shownEdges (f : Folding) :
    (s.shownEdges f).Pairwise fun a b => s.StreamBefore a.stream b.stream := by
  refine pairwise_of_idxOf nodup_shownEdges fun a ha b hb hlt => ?_
  obtain ⟨u, v, hd, -⟩ := h.mem_shownEdges.1 ha
  obtain ⟨u', v', hd', -⟩ := h.mem_shownEdges.1 hb
  have hne : a.stream ≠ b.stream := fun heq => by
    rw [h.shownEdges_inj ha hb heq] at hlt
    exact Nat.lt_irrefl _ hlt
  refine (h.streamBefore_total hd hd' hne).resolve_right fun hback => ?_
  exact Nat.lt_asymm hlt (h.idxOf_shownEdges_lt hb hback)

end Sound

/-! ## Edges between nodes -/

/-- An edge is told by its stream and the nodes that it joins. -/
theorem eq_joining_of_mem_edges (he : e ∈ s.pipeline.edges) :
    e = joining e.stream e.source e.target := by
  obtain ⟨i, u, v, -, rfl | hproxy⟩ := mem_edges.1 he
  · rfl
  · obtain ⟨n, m, rfl, ⟨g, rfl⟩ | ⟨g, rfl⟩⟩ := mem_proxiesOf hproxy
    · rfl
    · cases n <;> rfl

/-- The edge that joins the nodes standing for the codecs of a stream is among those that
    pictures are drawn with. -/
theorem Sound.joining_mem_edges (h : s.Sound) (hd : s.pipeline.Draws i u v)
    (hr : s.Represented f u v) (hn : s.rep? f u = some n) (hm : s.rep? f v = some m) :
    joining i n m ∈ s.pipeline.edges := by
  refine mem_edges.2 ⟨i, u, v, h.lawful.mem_drawn.2 hd, ?_⟩
  cases n with
  | codec c =>
    obtain ⟨rfl, -⟩ := rep?_eq_codec hn
    cases m with
    | codec d =>
      obtain ⟨rfl, -⟩ := rep?_eq_codec hm
      exact Or.inl rfl
    | graph right =>
      obtain ⟨hhidden, hv, -⟩ := rep?_eq_graph hm
      refine Or.inr ?_
      cases hu : s.pipeline.owner? c with
      | none => simp [proxiesOf_in hu hv, joining]
      | some left =>
        have hne : left ≠ right := by
          rintro rfl
          exact hr.not_inside ⟨⟨left, hu, hv⟩, Or.inr hhidden⟩
        simp [proxiesOf_across hu hv hne, joining]
  | graph left =>
    obtain ⟨hhidden, hu, -⟩ := rep?_eq_graph hn
    refine Or.inr ?_
    -- the graph of the source does not own the target, from which it hides the source
    have hne : ∀ right, s.pipeline.owner? v = some right → left ≠ right := by
      rintro right hv rfl
      exact hr.not_inside ⟨⟨left, hu, hv⟩, Or.inl hhidden⟩
    cases m with
    | codec d =>
      obtain ⟨rfl, -⟩ := rep?_eq_codec hm
      cases hv : s.pipeline.owner? d with
      | none => simp [proxiesOf_out hu hv, joining]
      | some right => simp [proxiesOf_across hu hv (hne right hv), joining]
    | graph right =>
      obtain ⟨-, hv, -⟩ := rep?_eq_graph hm
      simp [proxiesOf_across hu hv (hne right hv), joining]

/-- What is on screen is drawn with edges of the arena. -/
theorem Sound.mem_edges_of_mem_shownEdges (h : s.Sound) (he : e ∈ s.shownEdges f) :
    e ∈ s.pipeline.edges := by
  obtain ⟨u, v, hd, hshown⟩ := h.mem_shownEdges.1 he
  obtain ⟨hr, n, m, hn, hm, heq⟩ := shown?_eq_some.1 hshown
  rw [heq]
  exact h.joining_mem_edges hd hr hn hm

/-- One edge carries a stream between the nodes that an edge on screen joins. -/
theorem Sound.mem_edges_iff (h : s.Sound) (he : e ∈ s.shownEdges f) :
    (a ∈ s.pipeline.edges ∧ a.stream = e.stream ∧ a.ends = e.ends) ↔ a = e := by
  refine ⟨fun ⟨ha, hstream, hends⟩ => ?_, ?_⟩
  · obtain ⟨hsource, htarget⟩ := Prod.mk.inj hends
    rw [eq_joining_of_mem_edges ha, hstream, hsource, htarget,
      ← eq_joining_of_mem_edges (h.mem_edges_of_mem_shownEdges he)]
  · rintro rfl
    exact ⟨h.mem_edges_of_mem_shownEdges he, rfl, rfl⟩

/-! ## One edge for several -/

/-- An edge of the picture stands for the edges of these streams, from the first on. -/
structure StandsFor (s : Scene) (b : PictureEdge) (x : Stream) (rest : List Stream) : Prop where
  known : ∀ y ∈ x :: rest, s.pipeline.stream? y.id = some y
  streams_eq : b.streams = (x :: rest).map (·.id)
  nodup : b.streams.Nodup
  ordered : b.streams.Pairwise s.StreamBefore
  /-- The identifier is the one of the edge that carries the first stream between the nodes. -/
  arena_iff : ∀ a : Edge, (a ∈ s.pipeline.edges ∧ a.stream = x.id ∧ a.ends = b.ends) ↔
    a = ⟨b.id, b.source, b.target⟩
  size_eq : b.compressedSize = ((x :: rest).map (·.compressedSize)).sum
  /-- Shares are added from the first to the last. -/
  share_eq : b.share = rest.foldl (fun sum y => sum + y.share) x.share
  isMerged_iff : b.isMerged ↔ 2 ≤ (x :: rest).length
  label_single : b.isMerged = false → b.label = x.label s.settings.sharePrecision
  label_merged : b.isMerged → b.label = "#- (-) | Multiple edges\n" ++ toString b.compressedSize
    ++ (" [" ++ Number.fixed s.settings.sharePrecision b.share ++ "%]") ++ "\n- [-]"

/-- The streams of edges that streams are drawn by, with what is known of them. -/
theorem exists_streams (hl : ∀ e ∈ l, ∃ u v, s.pipeline.Draws e.stream u v)
    (hp : s.pipeline.Lawful) : ∃ xs : List Stream,
      (∀ x ∈ xs, s.pipeline.stream? x.id = some x) ∧ xs.map (·.id) = l.map Edge.stream ∧
      xs.map (·.compressedSize) = l.map s.sizeOf ∧ xs.map (·.share) = l.map s.shareOf := by
  have hknown : ∀ e ∈ l, ∃ x, s.pipeline.stream? e.stream = some x := fun e he => by
    obtain ⟨-, -, x, hx, -⟩ := hl e he
    exact ⟨x, hx⟩
  refine ⟨l.filterMap fun e => s.pipeline.stream? e.stream, fun x hx => ?_,
    map_filterMap_eq_map fun e he => ?_, map_filterMap_eq_map fun e he => ?_,
    map_filterMap_eq_map fun e he => ?_⟩
  · obtain ⟨e, -, hx⟩ := List.mem_filterMap.1 hx
    rwa [hp.stream_id _ x hx]
  all_goals obtain ⟨x, hx⟩ := hknown e he
  · exact ⟨x, hx, hp.stream_id _ x hx⟩
  · exact ⟨x, hx, by simp [sizeOf, hx]⟩
  · exact ⟨x, hx, by simp [shareOf, hx]⟩

/-- Merging adds up the sizes. -/
theorem size_merge :
    (s.merge first others).compressedSize = ((first :: others).map s.sizeOf).sum := by
  rw [List.sum_eq_foldl, List.foldl_map]
  rfl

theorem share_merge : (s.merge first others).share
    = (others.map s.shareOf).foldl (fun sum share => sum + share) (s.shareOf first) := by
  rw [List.foldl_map]
  rfl

theorem isMerged_merge : (s.merge first others).isMerged ↔ others ≠ [] := by
  cases others <;> simp [merge, PictureEdge.isMerged]

theorem label_merge_nil : (s.merge first []).label = s.label first.stream := rfl

theorem label_merge (hne : others ≠ []) : (s.merge first others).label
    = s.mergedLabel (s.merge first others).compressedSize (s.merge first others).share := by
  cases others with
  | nil => exact absurd rfl hne
  | cons e rest => rfl

section Merged

variable {x : Stream} {rest : List Stream} (h : s.Sound)
include h

/-- Edges on screen, in their order, are merged into one that stands for their streams. -/
theorem standsFor_merge (hsub : (first :: others).Sublist (s.shownEdges f))
    (hknown : ∀ y ∈ x :: rest, s.pipeline.stream? y.id = some y)
    (hids : (x :: rest).map (·.id) = (first :: others).map Edge.stream)
    (hsizes : (x :: rest).map (·.compressedSize) = (first :: others).map s.sizeOf)
    (hshares : (x :: rest).map (·.share) = (first :: others).map s.shareOf) :
    s.StandsFor (s.merge first others) x rest := by
  have hid : x.id = first.stream := (List.cons.inj hids).1
  have hlength : rest.length = others.length := by simpa using congrArg List.length hids
  have hpairwise : (s.merge first others).streams.Pairwise s.StreamBefore :=
    List.pairwise_map.2 ((h.pairwise_shownEdges f).sublist hsub)
  exact {
    known := hknown
    streams_eq := hids.symm
    nodup := hpairwise.imp StreamBefore.ne
    ordered := hpairwise
    arena_iff := fun a => by
      rw [hid]
      exact h.mem_edges_iff (hsub.subset List.mem_cons_self)
    size_eq := by rw [size_merge, hsizes]
    share_eq := by
      obtain ⟨hshare, hshares⟩ := List.cons.inj hshares
      rw [share_merge, ← hshare, ← hshares, List.foldl_map]
    isMerged_iff := by
      rw [isMerged_merge, ← List.length_pos_iff, ← hlength, List.length_cons]
      omega
    -- one edge has nothing to be merged with, and keeps the label of its stream
    label_single := fun hsingle => by
      have hnil : others = [] := by
        by_contra hne
        exact Bool.false_ne_true (hsingle.symm.trans (isMerged_merge.2 hne))
      have hx : s.pipeline.stream? first.stream = some x := hid ▸ hknown x List.mem_cons_self
      rw [hnil, label_merge_nil, label, hx, Option.map_some, Option.getD_some]
    label_merged := fun hmerged => by
      rw [label_merge (isMerged_merge.1 hmerged)]
      rfl }

/-- Every edge that is merged from edges on screen stands for their streams. -/
theorem exists_standsFor {pair : NodeId × NodeId} {b : PictureEdge}
    (hb : s.mergeBetween? (s.shownEdges f) pair = some b) : ∃ x rest, s.StandsFor b x rest := by
  obtain ⟨first, others, hfilter, rfl⟩ := mergeBetween?_eq_some.1 hb
  have hsub : (first :: others).Sublist (s.shownEdges f) := hfilter ▸ List.filter_sublist
  have hdrawn : ∀ e ∈ first :: others, ∃ u v, s.pipeline.Draws e.stream u v := fun e he =>
    h.lawful.stream_of_mem_edges (h.mem_edges_of_mem_shownEdges (hsub.subset he))
  obtain ⟨xs, hknown, hids, hsizes, hshares⟩ := exists_streams hdrawn h.lawful
  -- there is a first edge, so there is a first stream
  obtain ⟨x, rest, rfl⟩ : ∃ x rest, xs = x :: rest :=
    List.exists_cons_of_ne_nil (by rintro rfl; simp at hids)
  exact ⟨x, rest, standsFor_merge h hsub hknown hids hsizes hshares⟩

end Merged

/-! ## All edges -/

/-- A picture whose edges lose and invent nothing. -/
structure Coalesced (s : Scene) (f : Folding) (p : Picture) : Prop extends s.IsProjection f p where
  standsFor : ∀ b ∈ p.edges, ∃ x rest, s.StandsFor b x rest
  /-- The edges come in the order of the first streams that they list. -/
  ordered : p.edges.Pairwise fun b b' => ∀ i j, b.streams.head? = some i →
    b'.streams.head? = some j → s.StreamBefore i j
  /-- The sizes of the edges add up to those of the streams that are shown. -/
  total : ∃ xs : List Stream, (xs.map (·.id)).Nodup ∧
    (∀ x, x ∈ xs ↔ s.pipeline.stream? x.id = some x ∧
      ∃ u v, s.pipeline.Draws x.id u v ∧ s.Represented f u v) ∧
    (p.edges.map (·.compressedSize)).sum = (xs.map (·.compressedSize)).sum

/-- Merging adds up what the edges of each pair of nodes carry. -/
theorem sum_sizes_coalesce (edges : List Edge) :
    ((s.coalesce edges).map (·.compressedSize)).sum = (edges.map s.sizeOf).sum := by
  have hmap : (s.coalesce edges).map (·.compressedSize) = (edges.map Edge.ends).eraseDups.map
      fun pair => ((edges.filter fun e => e.ends == pair).map s.sizeOf).sum := by
    refine map_filterMap_eq_map fun pair hpair => ?_
    obtain ⟨e, he, rfl⟩ := List.mem_map.1 (List.mem_eraseDups.1 hpair)
    obtain ⟨b, hb, -⟩ := mergeBetween?_spec (s := s) he
    obtain ⟨first, others, hfilter, rfl⟩ := mergeBetween?_eq_some.1 hb
    exact ⟨_, hb, by rw [size_merge, hfilter]⟩
  rw [hmap]
  refine sum_groups (nodup_eraseDups (edges.map Edge.ends)) fun e he => ?_
  exact List.mem_eraseDups.2 (List.mem_map_of_mem he)

namespace Sound

variable (h : s.Sound)
include h

/-- Merged edges come in the order of their first streams. -/
theorem pairwise_coalesce (f : Folding) : (s.coalesce (s.shownEdges f)).Pairwise fun b b' =>
    ∀ i j, b.streams.head? = some i → b'.streams.head? = some j → s.StreamBefore i j := by
  have hfirsts := List.pairwise_filterMap.1
    ((h.pairwise_shownEdges f).sublist (filterMap_find?_sublist Edge.ends _))
  refine List.pairwise_filterMap.2 (hfirsts.imp fun {pair pair'} hpair b hb b' hb' i j hi hj => ?_)
  obtain ⟨first, others, hfilter, rfl⟩ := mergeBetween?_eq_some.1 hb
  obtain ⟨first', others', hfilter', rfl⟩ := mergeBetween?_eq_some.1 hb'
  obtain rfl : first.stream = i := Option.some.inj hi
  obtain rfl : first'.stream = j := Option.some.inj hj
  refine hpair first ?_ first' ?_
  · rw [← List.head?_filter, hfilter, List.head?_cons]
  · rw [← List.head?_filter, hfilter', List.head?_cons]

/-- The streams of the edges on screen are those that are to be shown. -/
theorem exists_shownStreams (f : Folding) : ∃ xs : List Stream, (xs.map (·.id)).Nodup ∧
    (∀ x, x ∈ xs ↔ s.pipeline.stream? x.id = some x ∧
      ∃ u v, s.pipeline.Draws x.id u v ∧ s.Represented f u v) ∧
    xs.map (·.compressedSize) = (s.shownEdges f).map s.sizeOf := by
  have hdrawn : ∀ e ∈ s.shownEdges f, ∃ u v, s.pipeline.Draws e.stream u v := fun e he =>
    h.lawful.stream_of_mem_edges (h.mem_edges_of_mem_shownEdges he)
  obtain ⟨xs, hknown, hids, hsizes, -⟩ := exists_streams hdrawn h.lawful
  refine ⟨xs, ?_, fun x => ⟨fun hx => ⟨hknown x hx, ?_⟩, fun ⟨hx, u, v, hd, hr⟩ => ?_⟩, hsizes⟩
  · rw [hids]
    exact (List.pairwise_map.2 (h.pairwise_shownEdges f)).imp StreamBefore.ne
  · have hid : x.id ∈ (s.shownEdges f).map Edge.stream := hids ▸ List.mem_map_of_mem hx
    obtain ⟨e, he, heq⟩ := List.mem_map.1 hid
    obtain ⟨u, v, hd, hshown⟩ := h.mem_shownEdges.1 he
    exact ⟨u, v, heq ▸ hd, (shown?_eq_some.1 hshown).1⟩
  · obtain ⟨e, hshown⟩ := exists_shown? (i := x.id) hr
    have hstream := stream_of_shown? hshown
    have he : e ∈ s.shownEdges f := h.mem_shownEdges.2 ⟨u, v, hstream ▸ hd, hstream ▸ hshown⟩
    have hid : x.id ∈ xs.map (·.id) := hids ▸ List.mem_map.2 ⟨e, he, hstream⟩
    -- the stream that is found has the same identifier, so it is this one
    obtain ⟨y, hy, heq⟩ := List.mem_map.1 hid
    have hyx : s.pipeline.stream? x.id = some y := heq ▸ hknown y hy
    exact Option.some.inj (hx.symm.trans hyx) ▸ hy

theorem coalesced (f : Folding) : s.Coalesced f (s.shownPicture f) where
  toIsProjection := h.isProjection f
  standsFor b hb := by
    obtain ⟨e, -, hmerge⟩ := mem_coalesce.1 hb
    exact exists_standsFor h hmerge
  ordered := h.pairwise_coalesce f
  total := by
    obtain ⟨xs, hnodup, hmem, hsizes⟩ := h.exists_shownStreams f
    refine ⟨xs, hnodup, hmem, ?_⟩
    rw [hsizes]
    exact sum_sizes_coalesce _

end Sound

/-- However the nodes of a scene are folded, the edges of its picture list the streams that are
    shown, once each and in order, and say what these add up to. -/
theorem picture_coalesced {t : Trace} {settings : Settings}
    (hbuild : Scene.build t settings = .ok s) (f : Folding) :
    ∃ p, s.picture f = .ok p ∧ s.Coalesced f p := by
  have hs := sound_of_build hbuild
  exact ⟨s.shownPicture f, hs.picture_eq f, hs.coalesced f⟩

/-- Two codecs, of which the first feeds the second by two streams.  It lists the later one
    first, and once more behind the other. -/
def twin : Trace where
  codecs := [
    { name := "first", inputs := [⟨0⟩], outputs := [⟨2⟩, ⟨1⟩, ⟨2⟩] },
    { name := "second", inputs := [⟨1⟩, ⟨2⟩] }]
  streams := [{}, { compressedSize := 3, share := 12.25 }, { compressedSize := 4, share := 30.5 }]

/-- The two streams share an edge, with the identifier of the one that is listed first and a
    label that has their size and their share. -/
theorem picture_coalesced_twin : ∃ s p, Scene.build twin {} = .ok s ∧
    s.picture s.start = .ok p ∧ s.Coalesced s.start p ∧
    p.edges.map (fun b => (b.id, b.streams, b.compressedSize, b.label))
      = [(.stream ⟨2⟩, [⟨2⟩, ⟨1⟩], 7, "#- (-) | Multiple edges\n7 [42.75%]\n- [-]")] := by
  have hrun : (Scene.build twin {}).toOption.any (fun s =>
      (s.picture s.start).toOption.any fun p =>
        p.edges.map (fun b => (b.id, b.streams, b.compressedSize, b.label))
          = [(.stream ⟨2⟩, [⟨2⟩, ⟨1⟩], 7, "#- (-) | Multiple edges\n7 [42.75%]\n- [-]")]) := by
    decide +kernel
  obtain ⟨s, hs, hq⟩ := exists_of_any_toOption hrun
  obtain ⟨p, hp, hedges⟩ := exists_of_any_toOption hq
  obtain ⟨p', hp', hcoalesced⟩ := picture_coalesced hs s.start
  obtain rfl := Except.ok.inj (hp.symm.trans hp')
  exact ⟨s, p, hs, hp, hcoalesced, of_decide_eq_true hedges⟩

end TraceFold.Scene
