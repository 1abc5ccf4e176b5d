/-
  TraceFold.Proofs.Picture.Nodes

  The list of the nodes on screen, however they are folded.  It names every codec that is
  visible and every graph that is visible and owns a codec, each once (`NodeList`).  The
  codecs stand in their order.  A graph stands where the earliest of its codecs has its
  place, be that one on screen or not: before every codec that has this place or a later
  one, and behind all codecs with an earlier one.
-/

import TraceFold.Proofs.Picture.Order

namespace TraceFold.Scene

variable {s : Scene} {f : Folding} {a c : CodecId} {g : GraphId}

/-- No codec of a graph comes before this one. -/
structure Earliest (s : Scene) (g : GraphId) (a : CodecId) : Prop where
  owner : s.pipeline.owner? a = some g
  first : ∀ c, s.pipeline.owner? c = some g → s.dag.order.idxOf a ≤ s.dag.order.idxOf c

theorem exists_earliest (hown : s.pipeline.owner? c = some g) : ∃ a, s.Earliest g a := by
  obtain ⟨a, ha, hfirst⟩ := (measure s.dag.order.idxOf).wf.has_min
    {x | s.pipeline.owner? x = some g} ⟨c, hown⟩
  exact ⟨a, ha, fun x hx => Nat.not_lt.1 (hfirst x hx)⟩

/-! ## Codecs -/

theorem filterMap_nodesOf :
    (s.nodesOf f c).filterMap NodeId.codec? = if f.codecVisible c then [c] else [] := by
  unfold nodesOf
  cases s.visibleOwner? f c <;> cases f.codecVisible c <;> rfl

/-- Of all nodes that the codecs bring, the codecs are those on screen, in their order. -/
theorem filterMap_flatMap_nodesOf :
    (s.dag.order.flatMap (s.nodesOf f)).filterMap NodeId.codec?
      = s.dag.order.filter f.codecVisible := by
  rw [List.filterMap_flatMap]
  simp only [filterMap_nodesOf]
  induction s.dag.order with
  | nil => rfl
  | cons c rest ih =>
    rw [List.flatMap_cons, ih]
    cases hc : f.codecVisible c with
    | true => rw [List.filter_cons_of_pos hc, if_pos rfl, List.singleton_append]
    | false => simp [hc]

theorem mem_filterMap_codec? {nodes : List NodeId} :
    c ∈ nodes.filterMap NodeId.codec? ↔ .codec c ∈ nodes := by
  rw [List.mem_filterMap]
  refine ⟨?_, fun hc => ⟨_, hc, rfl⟩⟩
  rintro ⟨n, hn, hcodec⟩
  cases n with
  | codec d =>
    obtain rfl : d = c := Option.some.inj hcodec
    exact hn
  | graph g => cases hcodec

namespace Sound

variable (h : s.Sound)
include h

/-- A codec is listed exactly if it is on screen. -/
theorem codec_mem_visibleNodes :
    .codec c ∈ s.visibleNodes f ↔ c.index < s.pipeline.codecs.size ∧ f.codecVisible c := by
  rw [h.mem_visibleNodes_iff]
  constructor
  · rintro ⟨hvisible, d, hd, rfl⟩
    exact ⟨hd, hvisible⟩
  · rintro ⟨hc, hvisible⟩
    exact ⟨hvisible, c, hc, rfl⟩

/-- A graph is listed exactly if it is on screen and owns a codec. -/
theorem graph_mem_visibleNodes : .graph g ∈ s.visibleNodes f ↔
    f.graphVisible g ∧ ∃ c, s.pipeline.owner? c = some g := by
  rw [h.mem_visibleNodes_iff]
  refine and_congr_right fun _ => exists_congr fun c => ?_
  exact and_iff_right_of_imp codec_lt_of_owner?

/-- Erasing repetitions takes no codec away, since no codec brings another one. -/
theorem filterMap_visibleNodes :
    (s.visibleNodes f).filterMap NodeId.codec? = s.dag.order.filter f.codecVisible := by
  have hsub : ((s.visibleNodes f).filterMap NodeId.codec?).Sublist
      (s.dag.order.filter f.codecVisible) := by
    rw [← filterMap_flatMap_nodesOf]
    exact (eraseDups_sublist _).filterMap _
  have hnodup : (s.dag.order.filter f.codecVisible).Nodup := h.sorted.nodup.filter _
  have hperm : ((s.visibleNodes f).filterMap NodeId.codec?).Perm
      (s.dag.order.filter f.codecVisible) := by
    refine (List.perm_ext_iff_of_nodup (hnodup.sublist hsub) hnodup).2 fun c => ?_
    rw [mem_filterMap_codec?, h.codec_mem_visibleNodes, List.mem_filter, h.mem_order]
  exact hsub.eq_of_length hperm.length_eq

/-! ## Graphs -/

/-- A graph stands before the codecs that its earliest codec does not come behind. -/
theorem graph_before (hg : .graph g ∈ s.visibleNodes f) (ha : s.pipeline.owner? a = some g)
    (hle : s.dag.order.idxOf a ≤ s.dag.order.idxOf c) :
    (s.visibleNodes f).idxOf (.graph g) < (s.visibleNodes f).idxOf (.codec c) := by
  have hvisible : f.graphVisible g := (h.graph_mem_visibleNodes.1 hg).1
  refine idxOf_eraseDups_lt (idxOf_flatMap_lt (List.mem_eraseDups.1 hg) fun y _ hy => ?_)
  obtain rfl : y = c := (mem_nodesOf.1 hy).1
  refine ⟨a, mem_nodesOf.2 ⟨ha, hvisible⟩, ?_⟩
  rcases Nat.lt_or_eq_of_le hle with hlt | heq
  · exact Or.inl hlt
  · -- the codec is the graph's earliest one, which brings the graph and then itself
    have hmem : a ∈ s.dag.order := h.mem_order.2 (codec_lt_of_owner? ha)
    obtain rfl : a = y := (List.idxOf_inj hmem).1 heq
    refine Or.inr ⟨rfl, ?_⟩
    have hnodes : s.nodesOf f a = .graph g :: if f.codecVisible a then [.codec a] else [] := by
      rw [nodesOf, visibleOwner?_eq_some.2 ⟨ha, hvisible⟩]
      rfl
    rw [hnodes, List.idxOf_cons_self, List.idxOf_cons_ne _ (by simp)]
    exact Nat.succ_pos _

/-- A graph stands behind the codecs that come before all of its own. -/
theorem codec_before (hc : .codec c ∈ s.visibleNodes f) (ha : s.Earliest g a)
    (hlt : s.dag.order.idxOf c < s.dag.order.idxOf a) :
    (s.visibleNodes f).idxOf (.codec c) < (s.visibleNodes f).idxOf (.graph g) :=
  h.idxOf_visibleNodes_lt hc fun b hb => ⟨c, rfl, Nat.lt_of_lt_of_le hlt (ha.first b hb)⟩

end Sound

/-! ## The list -/

/-- A list of the nodes on screen: codecs in their order, and graphs where their earliest
    codecs have their places. -/
structure NodeList (s : Scene) (f : Folding) (nodes : List NodeId) : Prop where
  nodup : nodes.Nodup
  mem_codec : ∀ c, .codec c ∈ nodes ↔ c.index < s.pipeline.codecs.size ∧ f.codecVisible c
  mem_graph : ∀ g, .graph g ∈ nodes ↔ f.graphVisible g ∧ ∃ c, s.pipeline.owner? c = some g
  codecs_eq : nodes.filterMap NodeId.codec? = s.dag.order.filter f.codecVisible
  /-- The earliest codec may be hidden, and need not be the first in the graph's list. -/
  graph_place : ∀ g, .graph g ∈ nodes → ∃ a, s.Earliest g a ∧ ∀ c, .codec c ∈ nodes →
    (s.dag.order.idxOf a ≤ s.dag.order.idxOf c →
      nodes.idxOf (.graph g) < nodes.idxOf (.codec c)) ∧
    (s.dag.order.idxOf c < s.dag.order.idxOf a →
      nodes.idxOf (.codec c) < nodes.idxOf (.graph g))
  before_members : ∀ g c, .graph g ∈ nodes → .codec c ∈ nodes → s.pipeline.owner? c = some g →
    nodes.idxOf (.graph g) < nodes.idxOf (.codec c)

theorem Sound.nodeList (h : s.Sound) (f : Folding) : s.NodeList f (s.visibleNodes f) where
  nodup := nodup_visibleNodes
  mem_codec _ := h.codec_mem_visibleNodes
  mem_graph _ := h.graph_mem_visibleNodes
  codecs_eq := h.filterMap_visibleNodes
  graph_place g hg := by
    obtain ⟨-, c, hown⟩ := h.graph_mem_visibleNodes.1 hg
    obtain ⟨a, ha⟩ := exists_earliest hown
    exact ⟨a, ha, fun d hd => ⟨h.graph_before hg ha.owner, h.codec_before hd ha⟩⟩
  before_members g c hg _ hown := h.graph_before hg hown (Nat.le_refl _)

/-- However the nodes of a scene are folded, its picture names those on screen once each, the
    codecs in their order and every graph in the place of its earliest codec. -/
theorem picture_nodeList {t : Trace} {settings : Settings}
    (hbuild : Scene.build t settings = .ok s) (f : Folding) :
    ∃ p, s.picture f = .ok p ∧ s.NodeList f p.nodes := by
  have hs := sound_of_build hbuild
  exact ⟨s.shownPicture f, hs.picture_eq f, hs.nodeList f⟩

/-- The second pair is owned by a graph that lists its later codec first; here the earlier
    one is hidden. -/
theorem picture_nodeList_pairs : ∃ s, Scene.build pairs {} = .ok s ∧
    ∃ p, s.picture ⟨#[{}, {}, { visible := false }, {}], #[{}, {}]⟩ = .ok p ∧
      s.NodeList ⟨#[{}, {}, { visible := false }, {}], #[{}, {}]⟩ p.nodes := by
  obtain ⟨s, hs⟩ := exists_build_pairs
  exact ⟨s, hs, picture_nodeList hs _⟩

end TraceFold.Scene
