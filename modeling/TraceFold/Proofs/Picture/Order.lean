/-
  TraceFold.Proofs.Picture.Order

  In which order the nodes of a picture stand, and which of its edges run forwards.  A
  node comes on screen with the first of the codecs that bring it, so one node stands
  before another if some codec of it comes before every codec of the other (`Leads`).
  Every edge to a codec runs forwards.  An edge into a graph does exactly if the graph
  does not lead the edge's source (`Reentered`): a graph stands where the first of its
  codecs is, whatever feeds the others.  Edges that run forwards close no cycle, and if
  the codecs of every graph come one right after the other, all edges do.
-/

import TraceFold.Proofs.Folding.Reachable
import TraceFold.Proofs.Picture.Projection

namespace TraceFold.Scene

open Relation (TransGen)

variable {s : Scene} {f : Folding} {a c u : CodecId} {g : GraphId} {n m : NodeId}
  {e : PictureEdge} {p : Picture}

/-! ## The nodes that codecs bring -/

/-- A codec brings a node on screen: itself, or the graph that owns it. -/
def Brings (s : Scene) (c : CodecId) : NodeId → Prop
  | .codec d => c = d
  | .graph g => s.pipeline.owner? c = some g

/-- Some codec of a node comes before every codec of another one. -/
def Leads (s : Scene) (n m : NodeId) : Prop :=
  ∀ b, s.Brings b m → ∃ a, s.Brings a n ∧ s.dag.order.idxOf a < s.dag.order.idxOf b

theorem mem_nodesOf : n ∈ s.nodesOf f c ↔ s.Brings c n ∧ f.nodeVisible n := by
  unfold nodesOf
  cases n with
  | codec d =>
    by_cases hvisible : f.codecVisible c
    · simp only [hvisible, if_true, List.mem_append, Option.mem_toList, Option.map_eq_some_iff,
        List.mem_singleton, NodeId.codec.injEq, Brings]
      refine ⟨?_, ?_⟩
      · rintro (⟨g, -, hg⟩ | rfl)
        · cases hg
        · exact ⟨rfl, hvisible⟩
      · rintro ⟨rfl, -⟩
        exact Or.inr rfl
    · simp only [hvisible, List.mem_append, Option.mem_toList, Option.map_eq_some_iff, Brings]
      refine ⟨?_, ?_⟩
      · rintro (⟨g, -, hg⟩ | hnil)
        · cases hg
        · exact absurd hnil List.not_mem_nil
      · rintro ⟨rfl, hd⟩
        exact absurd hd hvisible
  | graph g =>
    have hcodec : NodeId.graph g ∉ if f.codecVisible c then [NodeId.codec c] else [] := by
      split <;> simp
    simp only [List.mem_append, hcodec, or_false, Option.mem_toList, Option.map_eq_some_iff,
      visibleOwner?_eq_some, NodeId.graph.injEq, Brings]
    refine ⟨?_, fun hg => ⟨g, hg, rfl⟩⟩
    rintro ⟨g', hg', rfl⟩
    exact hg'

theorem nodup_visibleNodes : (s.visibleNodes f).Nodup :=
  nodup_eraseDups _

namespace Sound

variable (h : s.Sound)
include h

theorem mem_visibleNodes_iff : n ∈ s.visibleNodes f ↔
    f.nodeVisible n ∧ ∃ c, c.index < s.pipeline.codecs.size ∧ s.Brings c n := by
  simp only [visibleNodes, List.mem_eraseDups, List.mem_flatMap, mem_nodesOf, h.mem_order]
  refine ⟨?_, ?_⟩
  · rintro ⟨c, hc, hbrings, hvisible⟩
    exact ⟨hvisible, c, hc, hbrings⟩
  · rintro ⟨hvisible, c, hc, hbrings⟩
    exact ⟨c, hc, hbrings, hvisible⟩

/-- A node on screen stands before those that it leads. -/
theorem idxOf_visibleNodes_lt (hn : n ∈ s.visibleNodes f) (hlead : s.Leads n m) :
    (s.visibleNodes f).idxOf n < (s.visibleNodes f).idxOf m := by
  refine idxOf_eraseDups_lt (idxOf_flatMap_lt (List.mem_eraseDups.1 hn) fun y _ hy => ?_)
  obtain ⟨x, hx, hlt⟩ := hlead y (mem_nodesOf.1 hy).1
  exact ⟨x, mem_nodesOf.2 ⟨hx, (h.mem_visibleNodes_iff.1 hn).1⟩, Or.inl hlt⟩

end Sound

theorem brings_of_rep? (hn : s.rep? f u = some n) : s.Brings u n := by
  cases n with
  | codec d => exact (rep?_eq_codec hn).1.symm
  | graph g => exact (rep?_eq_graph hn).2.1

/-! ## Edges that run forwards -/

/-- An edge leads into a graph that has a codec before every codec of the edge's source. -/
def Reentered (s : Scene) (e : PictureEdge) : Prop :=
  ∃ g, e.target = .graph g ∧ s.Leads (.graph g) e.source

/-- An edge goes from one node to another and does not lead into a graph again. -/
def Forwards (s : Scene) (p : Picture) (n m : NodeId) : Prop :=
  ∃ e ∈ p.edges, e.ends = (n, m) ∧ ¬s.Reentered e

/-- A picture whose edges run forwards in the order of its nodes, except into graphs that
    have a codec before what the edge comes from. -/
structure InOrder (s : Scene) (p : Picture) : Prop where
  ends_mem : ∀ e ∈ p.edges, e.source ∈ p.nodes ∧ e.target ∈ p.nodes
  before_iff : ∀ e ∈ p.edges,
    p.nodes.idxOf e.source < p.nodes.idxOf e.target ↔ ¬s.Reentered e
  acyclic : ∀ n, ¬TransGen (s.Forwards p) n n

/-- The codecs of a graph come one right after the other in the order of all codecs. -/
def Consecutive (s : Scene) (g : GraphId) : Prop :=
  ∀ a b c, s.pipeline.owner? a = some g → s.pipeline.owner? c = some g →
    s.dag.order.idxOf a < s.dag.order.idxOf b → s.dag.order.idxOf b < s.dag.order.idxOf c →
      s.pipeline.owner? b = some g

section Edges

variable (hs : s.Sound) (he : e ∈ s.coalesce (s.shownEdges f))
include hs he

/-- No codec brings both ends of an edge. -/
theorem not_brings_both (hsource : s.Brings a e.source) : ¬s.Brings a e.target := by
  intro htarget
  -- such an edge would be a loop, or run between a graph and a codec of its own
  have hproj := hs.isProjection f
  have hloop := hproj.no_loop e he
  have hinner := hproj.no_inner e he
  cases hn : e.source with
  | codec x =>
    rw [hn] at hsource
    obtain rfl : a = x := hsource
    cases hm : e.target with
    | codec y =>
      rw [hm] at htarget
      exact hloop (hn.trans ((congrArg NodeId.codec htarget).trans hm.symm))
    | graph g =>
      rw [hm] at htarget
      exact (hinner a g htarget).2 (Prod.ext hn hm)
  | graph g =>
    rw [hn] at hsource
    cases hm : e.target with
    | codec y =>
      rw [hm] at htarget
      obtain rfl : a = y := htarget
      exact (hinner a g hsource).1 (Prod.ext hn hm)
    | graph g' =>
      rw [hm] at htarget
      obtain rfl : g = g' := Option.some.inj (hsource.symm.trans htarget)
      exact hloop (hn.trans hm.symm)

/-- The codecs of a stream that an edge shows: the source comes before the target. -/
theorem exists_brings : ∃ u v, s.Brings u e.source ∧ s.Brings v e.target ∧
    s.dag.order.idxOf u < s.dag.order.idxOf v := by
  obtain ⟨i, u, v, hdraws, -, hsource, htarget⟩ := hs.exists_of_mem_edges he
  have hchild : Dag.Child s.dag.children u v := hs.child_iff.2 ⟨i, hdraws⟩
  exact ⟨u, v, brings_of_rep? hsource, brings_of_rep? htarget, hs.sorted.before u v hchild⟩

/-- The source of an edge leads the target, unless the edge leads into a graph again. -/
theorem leads_of_not_reentered (hnot : ¬s.Reentered e) : s.Leads e.source e.target := by
  intro c hc
  obtain ⟨u, v, hu, hv, hlt⟩ := exists_brings hs he
  cases hm : e.target with
  | codec y =>
    -- only the target of the stream brings the target of the edge
    rw [hm] at hc hv
    obtain rfl : c = y := hc
    obtain rfl : v = c := hv
    exact ⟨u, hu, hlt⟩
  | graph g =>
    -- some codec of the source comes before all codecs of the graph
    rw [hm] at hc
    have hlead : ¬s.Leads (.graph g) e.source := fun hlead => hnot ⟨g, hm, hlead⟩
    unfold Leads at hlead
    push Not at hlead
    obtain ⟨b, hb, hfirst⟩ := hlead
    refine ⟨b, hb, lt_of_le_of_ne (hfirst c hc) fun heq => ?_⟩
    have hcmem : c ∈ s.dag.order := hs.mem_order.2 (codec_lt_of_owner? hc)
    obtain rfl : c = b := (List.idxOf_inj hcmem).1 heq.symm
    exact not_brings_both hs he hb (hm ▸ hc)

/-- An edge runs forwards exactly if it does not lead into a graph again. -/
theorem before_iff_not_reentered :
    (s.visibleNodes f).idxOf e.source < (s.visibleNodes f).idxOf e.target ↔
      ¬s.Reentered e := by
  obtain ⟨hsource, htarget⟩ := (hs.isProjection f).ends_mem e he
  refine ⟨?_, fun hnot => ?_⟩
  · rintro hlt ⟨g, hm, hlead⟩
    rw [← hm] at hlead
    exact Nat.lt_asymm hlt (hs.idxOf_visibleNodes_lt htarget hlead)
  · exact hs.idxOf_visibleNodes_lt hsource (leads_of_not_reentered hs he hnot)

/-- Into a graph whose codecs come one right after the other, every edge runs forwards. -/
theorem not_reentered_of_consecutive (hgraphs : ∀ g, s.Consecutive g) : ¬s.Reentered e := by
  rintro ⟨g, hm, hlead⟩
  obtain ⟨u, v, hu, hv, hlt⟩ := exists_brings hs he
  obtain ⟨a, ha, hau⟩ := hlead u hu
  rw [hm] at hv
  -- the source of the stream lies between two codecs of the graph, so it is one itself
  have hown : s.pipeline.owner? u = some g := hgraphs g a u v ha hv hau hlt
  exact not_brings_both hs he hu (hm ▸ hown)

end Edges

theorem Forwards.before (hs : s.Sound) (h : s.Forwards (s.shownPicture f) n m) :
    (s.visibleNodes f).idxOf n < (s.visibleNodes f).idxOf m := by
  obtain ⟨e, he, hends, hnot⟩ := h
  obtain ⟨rfl, rfl⟩ := Prod.mk.inj hends
  exact (before_iff_not_reentered hs he).2 hnot

theorem Sound.inOrder (hs : s.Sound) (f : Folding) : s.InOrder (s.shownPicture f) where
  ends_mem := (hs.isProjection f).ends_mem
  before_iff _ he := before_iff_not_reentered hs he
  acyclic n hcycle := by
    -- the place of a node only grows along such edges
    have hlt := hcycle.lift (s.visibleNodes f).idxOf fun _ _ => Forwards.before hs
    rw [Relation.transGen_eq_self] at hlt
    exact Nat.lt_irrefl _ hlt

/-- If the codecs of every graph come one right after the other, every edge runs
    forwards. -/
theorem before_of_consecutive (hs : s.Sound) (hgraphs : ∀ g, s.Consecutive g)
    (hp : s.picture f = .ok p) (he : e ∈ p.edges) :
    p.nodes.idxOf e.source < p.nodes.idxOf e.target := by
  obtain rfl := Except.ok.inj ((hs.picture_eq f).symm.trans hp)
  exact (before_iff_not_reentered hs he).2 (not_reentered_of_consecutive hs he hgraphs)

/-- However the nodes of a scene are folded, an edge of the picture runs forwards exactly
    if it does not lead into a graph that has a codec before every codec of the edge's
    source, and the edges that run forwards close no cycle. -/
theorem picture_inOrder {t : Trace} {settings : Settings}
    (hbuild : Scene.build t settings = .ok s) (f : Folding) :
    ∃ p, s.picture f = .ok p ∧ s.InOrder p := by
  have hs := sound_of_build hbuild
  exact ⟨s.shownPicture f, hs.picture_eq f, hs.inOrder f⟩

/-- With both of its codecs hidden, the graph of a fork is led into from one branch. -/
theorem picture_inOrder_fork : ∃ s, Scene.build fork {} = .ok s ∧
    ∃ p, s.picture ⟨#[{}, { visible := false }, {}, { visible := false }],
      #[{ collapsed := true }]⟩ = .ok p ∧ s.InOrder p := by
  obtain ⟨s, hs⟩ := exists_build_fork
  exact ⟨s, hs, picture_inOrder hs _⟩

/-- Once the graph of a fork is collapsed, the edge that leads into it from the longer
    branch runs backwards. -/
theorem exists_backward_edge : ∃ s f nodes, Scene.build fork {} = .ok s ∧
    s.apply s.start (.toggle (.graph ⟨0⟩)) = .ok (f, nodes) ∧ s.Reachable f ∧
    ∃ p, s.picture f = .ok p ∧ ∃ e ∈ p.edges, e.ends = (.codec ⟨2⟩, .graph ⟨0⟩) ∧
      ¬p.nodes.idxOf e.source < p.nodes.idxOf e.target := by
  have hrun : (Scene.build fork {}).toOption.any (fun s =>
      (s.apply s.start (.toggle (.graph ⟨0⟩))).toOption.any fun r =>
        (s.picture r.1).toOption.any fun p => p.edges.any fun e =>
          e.ends == (.codec ⟨2⟩, .graph ⟨0⟩)
            && !decide (p.nodes.idxOf e.source < p.nodes.idxOf e.target)) = true := by
    decide +kernel
  obtain ⟨s, hs⟩ := exists_build_fork
  rw [hs] at hrun
  cases happly : s.apply s.start (.toggle (.graph ⟨0⟩)) with
  | error e => simp [happly, Except.toOption] at hrun
  | ok r =>
    cases hpicture : s.picture r.1 with
    | error e => simp [happly, hpicture, Except.toOption] at hrun
    | ok p =>
      simp only [Except.toOption, Option.any_some, happly, hpicture, List.any_eq_true,
        Bool.and_eq_true, beq_iff_eq, Bool.not_eq_true', decide_eq_false_iff_not] at hrun
      obtain ⟨e, he, hends, hback⟩ := hrun
      exact ⟨s, r.1, r.2, hs, happly, .step .start happly, p, hpicture, e, he, hends, hback⟩

end TraceFold.Scene
