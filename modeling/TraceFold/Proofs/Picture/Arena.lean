/-
  TraceFold.Proofs.Picture.Arena

  All the edges that pictures are drawn with, and the lists of those that enter and leave
  a graph.  The streams that are drawn come in ascending order, first each with its own
  edge, then each with its proxies (`Arena`).  An identifier tells its stream, and among
  the edges of one stream the ends, so no two edges share one.  The lists of a graph are
  read off its boundary, stream by stream; they hold what the arena holds, in its order
  (`entries_eq`, `exits_eq`).
-/

import TraceFold.Proofs.Picture.Pick

namespace TraceFold

variable {p : Pipeline} {i : StreamId} {u v : CodecId} {g h : GraphId} {e : Edge}

namespace Pipeline

/-! ## The proxies of one stream -/

/-- A stream has no proxies if one graph owns both ends, or none owns either. -/
theorem proxiesOf_of_owner?_eq (howner : p.owner? u = p.owner? v) : p.proxiesOf i u v = [] := by
  unfold proxiesOf
  rw [howner]
  cases p.owner? v with
  | none => rfl
  | some g => exact if_pos rfl

/-- A stream between two graphs has three proxies. -/
theorem proxiesOf_across (hu : p.owner? u = some g) (hv : p.owner? v = some h) (hne : g ≠ h) :
    p.proxiesOf i u v = [.proxy i (.graph g) (.graph h), .proxy i (.graph g) (.codec v),
      .proxy i (.codec u) (.graph h)] := by
  unfold proxiesOf
  rw [hu, hv]
  exact if_neg hne

theorem proxiesOf_out (hu : p.owner? u = some g) (hv : p.owner? v = none) :
    p.proxiesOf i u v = [.proxy i (.graph g) (.codec v)] := by
  unfold proxiesOf
  rw [hu, hv]

theorem proxiesOf_in (hu : p.owner? u = none) (hv : p.owner? v = some g) :
    p.proxiesOf i u v = [.proxy i (.codec u) (.graph g)] := by
  unfold proxiesOf
  rw [hu, hv]

/-- A proxy of a stream runs between graphs that own its codecs, or between such a graph and
    one of the codecs. -/
theorem mem_proxiesOf (he : e ∈ p.proxiesOf i u v) : ∃ n m, e = .proxy i n m ∧
    ((∃ g, n = .graph g) ∨ ∃ g, m = .graph g) := by
  cases hu : p.owner? u with
  | none =>
    cases hv : p.owner? v with
    | none => simp [proxiesOf_of_owner?_eq (hu.trans hv.symm)] at he
    | some h =>
      rw [proxiesOf_in hu hv, List.mem_singleton] at he
      exact ⟨_, _, he, Or.inr ⟨h, rfl⟩⟩
  | some g =>
    cases hv : p.owner? v with
    | none =>
      rw [proxiesOf_out hu hv, List.mem_singleton] at he
      exact ⟨_, _, he, Or.inl ⟨g, rfl⟩⟩
    | some h =>
      by_cases hgh : g = h
      · simp [proxiesOf_of_owner?_eq (hu.trans (hgh ▸ hv.symm))] at he
      · rw [proxiesOf_across hu hv hgh, List.mem_cons, List.mem_cons, List.mem_singleton] at he
        rcases he with he | he | he
        · exact ⟨_, _, he, Or.inl ⟨g, rfl⟩⟩
        · exact ⟨_, _, he, Or.inl ⟨g, rfl⟩⟩
        · exact ⟨_, _, he, Or.inr ⟨h, rfl⟩⟩

theorem stream_of_mem_proxiesOf (he : e ∈ p.proxiesOf i u v) : e.stream = i := by
  obtain ⟨n, m, rfl, -⟩ := mem_proxiesOf he
  rfl

/-- The identifier of a proxy tells that it is one. -/
theorem isProxy_of_mem_proxiesOf (he : e ∈ p.proxiesOf i u v) : e.id.isProxy := by
  obtain ⟨n, m, rfl, -⟩ := mem_proxiesOf he
  rfl

theorem nodup_proxiesOf : ((p.proxiesOf i u v).map Edge.id).Nodup := by
  unfold proxiesOf
  cases p.owner? u <;> cases p.owner? v
  case some.some g h => by_cases hinside : g = h <;> simp [hinside, Edge.proxy]
  all_goals simp

/-- A stream enters a graph by those of its proxies that end there. -/
theorem entries_eq : p.entries g i u v
    = (p.proxiesOf i u v).filter fun e => e.id.isProxy && e.target == .graph g := by
  unfold entries proxiesOf
  cases hu : p.owner? u <;> cases hv : p.owner? v
  case some.some left right =>
    by_cases hinside : left = right
    · subst hinside
      by_cases hg : left = g <;> simp [hg]
    · by_cases hg : right = g
      · subst hg
        simp [hinside, Edge.proxy, EdgeId.isProxy]
      · simp [hinside, hg, Edge.proxy, EdgeId.isProxy]
  case none.some right => by_cases hg : right = g <;> simp [hg, Edge.proxy, EdgeId.isProxy]
  all_goals simp [Edge.proxy]

/-- A stream leaves a graph by those of its proxies that start there. -/
theorem exits_eq : p.exits g i u v
    = (p.proxiesOf i u v).filter fun e => e.id.isProxy && e.source == .graph g := by
  unfold exits proxiesOf
  cases hu : p.owner? u <;> cases hv : p.owner? v
  case some.some left right =>
    by_cases hinside : left = right
    · subst hinside
      by_cases hg : left = g <;> simp [hg]
    · by_cases hg : left = g
      · subst hg
        simp [Ne.symm hinside, hinside, Edge.proxy, EdgeId.isProxy]
      · simp [hinside, hg, Edge.proxy, EdgeId.isProxy]
  case some.none left => by_cases hg : left = g <;> simp [hg, Edge.proxy, EdgeId.isProxy]
  all_goals simp [Edge.proxy]

/-! ## The lists of a graph -/

/-- Of all edges, those that pass a test which only proxies pass are proxies of the
    streams. -/
theorem filter_edges {q : Edge → Bool} (hq : ∀ e, q e → e.id.isProxy) :
    p.edges.filter q
      = p.drawnStreams.flatMap fun (x, u, v) => (p.proxiesOf x.id u v).filter q := by
  have hcodecs : p.codecEdges.filter q = [] := by
    refine List.filter_eq_nil_iff.2 fun e he hpass => ?_
    obtain ⟨x, -, rfl⟩ := List.mem_map.1 he
    exact Bool.false_ne_true (hq _ hpass)
  rw [edges, List.filter_append, hcodecs, List.nil_append, List.filter_flatMap]

/-- The list of a graph's entries holds the proxies of the arena that end there, in the same
    order. -/
theorem incoming_eq_filter (p : Pipeline) (g : GraphId) :
    p.incoming g = p.edges.filter fun e => e.id.isProxy && e.target == .graph g := by
  rw [filter_edges fun e he => (Bool.and_eq_true_iff.1 he).1, incoming]
  exact congrArg p.drawnStreams.flatMap (funext fun _ => entries_eq)

theorem outgoing_eq_filter (p : Pipeline) (g : GraphId) :
    p.outgoing g = p.edges.filter fun e => e.id.isProxy && e.source == .graph g := by
  rw [filter_edges fun e he => (Bool.and_eq_true_iff.1 he).1, outgoing]
  exact congrArg p.drawnStreams.flatMap (funext fun _ => exits_eq)

/-! ## Streams in order -/

/-- The streams that are drawn, by identifier, with the codecs at their ends. -/
def drawn (p : Pipeline) : List (StreamId × CodecId × CodecId) :=
  p.drawnStreams.map fun (x, u, v) => (x.id, u, v)

/-- The arena holds the own edges of the streams first, and then the proxies. -/
theorem edges_eq_drawn (p : Pipeline) : p.edges
    = (p.drawn.map fun (i, u, v) => Edge.between i u v)
      ++ p.drawn.flatMap fun (i, u, v) => p.proxiesOf i u v := by
  simp only [edges, codecEdges, drawn, List.map_map, List.flatMap_map]
  rfl

/-- Every edge of the arena is the own edge of a stream or one of its proxies. -/
theorem mem_edges : e ∈ p.edges ↔ ∃ i u v, (i, u, v) ∈ p.drawn ∧
    (e = .between i u v ∨ e ∈ p.proxiesOf i u v) := by
  simp only [edges_eq_drawn, List.mem_append, List.mem_map, List.mem_flatMap, Prod.exists]
  constructor
  · rintro (⟨i, u, v, hd, rfl⟩ | ⟨i, u, v, hd, he⟩)
    · exact ⟨i, u, v, hd, Or.inl rfl⟩
    · exact ⟨i, u, v, hd, Or.inr he⟩
  · rintro ⟨i, u, v, hd, rfl | he⟩
    · exact Or.inl ⟨i, u, v, hd, rfl⟩
    · exact Or.inr ⟨i, u, v, hd, he⟩

/-- Every proxy enters a graph or leaves one. -/
theorem mem_incoming_or_outgoing (he : e ∈ p.edges) (hproxy : e.id.isProxy) :
    ∃ g, e ∈ p.incoming g ∨ e ∈ p.outgoing g := by
  obtain ⟨i, u, v, -, rfl | hmem⟩ := mem_edges.1 he
  · exact absurd hproxy Bool.false_ne_true
  · obtain ⟨n, m, rfl, ⟨g, rfl⟩ | ⟨g, rfl⟩⟩ := mem_proxiesOf hmem
    · refine ⟨g, Or.inr ?_⟩
      rw [outgoing_eq_filter]
      exact List.mem_filter.2 ⟨he, by simp [Edge.proxy, EdgeId.isProxy]⟩
    · refine ⟨g, Or.inl ?_⟩
      rw [incoming_eq_filter]
      exact List.mem_filter.2 ⟨he, by simp [Edge.proxy, EdgeId.isProxy]⟩

namespace Lawful

variable (hp : p.Lawful)
include hp

/-- The streams that are drawn are listed with their ends. -/
theorem mem_drawn : (i, u, v) ∈ p.drawn ↔ p.Draws i u v := by
  simp only [drawn, List.mem_map, Prod.exists, Prod.mk.injEq]
  constructor
  · rintro ⟨x, u', v', hx, rfl, rfl, rfl⟩
    obtain ⟨j, hj, hends⟩ := mem_drawnStreams.1 hx
    obtain rfl := hp.stream_id j x hj
    exact ⟨x, hj, hends⟩
  · rintro ⟨x, hx, hends⟩
    exact ⟨x, u, v, mem_drawnStreams.2 ⟨i, hx, hends⟩, hp.stream_id i x hx, rfl, rfl⟩

theorem ascending_drawn : p.drawn.Pairwise fun a b => a.1.index < b.1.index :=
  List.Pairwise.map _ (fun _ _ hlt => hlt) hp.ascending_drawnStreams

theorem stream_of_mem_edges (he : e ∈ p.edges) : ∃ u v, p.Draws e.stream u v := by
  obtain ⟨i, u, v, hd, rfl | he⟩ := mem_edges.1 he
  · exact ⟨u, v, hp.mem_drawn.1 hd⟩
  · rw [stream_of_mem_proxiesOf he]
    exact ⟨u, v, hp.mem_drawn.1 hd⟩

/-- No two edges share an identifier. -/
theorem nodup_ids : (p.edges.map Edge.id).Nodup := by
  have hne : p.drawn.Pairwise fun a b => a.1 ≠ b.1 :=
    List.Pairwise.map _ (fun _ _ hne => hne) hp.pairwise_drawnStreams
  rw [edges_eq_drawn, List.map_append, List.map_map, List.map_flatMap]
  refine List.nodup_append'.2 ⟨?_, ?_, ?_⟩
  · -- the identifier of a stream's own edge is the stream
    exact List.Pairwise.map _ (fun _ _ hab hid => hab (EdgeId.stream.inj hid)) hne
  · refine List.nodup_flatMap.2 ⟨fun _ _ => nodup_proxiesOf, hne.imp fun {a b} hab => ?_⟩
    -- proxies of two streams carry different streams
    intro id ha hb
    obtain ⟨e, he, rfl⟩ := List.mem_map.1 ha
    obtain ⟨e', he', hid⟩ := List.mem_map.1 hb
    refine hab ?_
    rw [← stream_of_mem_proxiesOf he, ← stream_of_mem_proxiesOf he', Edge.stream, Edge.stream, hid]
  · intro id hown hproxy
    obtain ⟨a, -, rfl⟩ := List.mem_map.1 hown
    obtain ⟨b, -, hb⟩ := List.mem_flatMap.1 hproxy
    obtain ⟨e, he, hid⟩ := List.mem_map.1 hb
    have hisProxy := isProxy_of_mem_proxiesOf he
    rw [hid] at hisProxy
    exact Bool.false_ne_true hisProxy

/-- A search by identifier finds the edge that has it. -/
theorem edge?_eq_some_iff {id : EdgeId} : p.edge? id = some e ↔ e ∈ p.edges ∧ e.id = id := by
  rw [edge?, find?_eq_some_iff_of_unique, beq_iff_eq]
  intro a ha b hb hida hidb
  exact List.inj_on_of_nodup_map hp.nodup_ids ha hb ((eq_of_beq hida).trans (eq_of_beq hidb).symm)

end Lawful

end Pipeline

/-! ## The arena -/

namespace Scene

variable {s : Scene}

/-- The edges of a scene, by the streams that are drawn. -/
structure Arena (s : Scene) (drawn : List (StreamId × CodecId × CodecId)) : Prop where
  ascending : drawn.Pairwise fun a b => a.1.index < b.1.index
  mem_drawn : ∀ i u v, (i, u, v) ∈ drawn ↔ s.pipeline.Draws i u v
  /-- Every stream has its own edge; the proxies of all streams come behind these. -/
  edges_eq : s.pipeline.edges = (drawn.map fun (i, u, v) => Edge.between i u v)
    ++ drawn.flatMap fun (i, u, v) => s.pipeline.proxiesOf i u v
  /-- A stream inside one graph has no proxy, nor one between codecs that no graph owns. -/
  proxies_inside : ∀ i u v, s.pipeline.owner? u = s.pipeline.owner? v →
    s.pipeline.proxiesOf i u v = []
  proxies_across : ∀ i u v g h, s.pipeline.owner? u = some g → s.pipeline.owner? v = some h →
    g ≠ h → s.pipeline.proxiesOf i u v = [.proxy i (.graph g) (.graph h),
      .proxy i (.graph g) (.codec v), .proxy i (.codec u) (.graph h)]
  proxies_out : ∀ i u v g, s.pipeline.owner? u = some g → s.pipeline.owner? v = none →
    s.pipeline.proxiesOf i u v = [.proxy i (.graph g) (.codec v)]
  proxies_in : ∀ i u v g, s.pipeline.owner? u = none → s.pipeline.owner? v = some g →
    s.pipeline.proxiesOf i u v = [.proxy i (.codec u) (.graph g)]
  /-- What is looked up as the label of an edge, by its stream, is the label of a stream that
      the tables have. -/
  label_eq : ∀ e ∈ s.pipeline.edges, ∃ x, s.pipeline.stream? e.stream = some x ∧
    s.label e.stream = x.label s.settings.sharePrecision
  nodup_ids : (s.pipeline.edges.map Edge.id).Nodup
  edge?_eq_some : ∀ id e, s.pipeline.edge? id = some e ↔ e ∈ s.pipeline.edges ∧ e.id = id
  edge?_eq_none : ∀ id, s.pipeline.edge? id = none ↔ ∀ e ∈ s.pipeline.edges, e.id ≠ id
  /-- The lists of a graph hold the proxies that end or start there, in the same order. -/
  incoming_eq : ∀ g, s.pipeline.incoming g
    = s.pipeline.edges.filter fun e => e.id.isProxy && e.target == .graph g
  outgoing_eq : ∀ g, s.pipeline.outgoing g
    = s.pipeline.edges.filter fun e => e.id.isProxy && e.source == .graph g
  nodup_incoming : ∀ g, (s.pipeline.incoming g).Nodup
  nodup_outgoing : ∀ g, (s.pipeline.outgoing g).Nodup
  proxy_mem : ∀ e ∈ s.pipeline.edges, e.id.isProxy →
    ∃ g, e ∈ s.pipeline.incoming g ∨ e ∈ s.pipeline.outgoing g

/-- The tables of a sound scene give an arena. -/
theorem Sound.arena (hs : s.Sound) : s.Arena s.pipeline.drawn where
  ascending := hs.lawful.ascending_drawn
  mem_drawn _ _ _ := hs.lawful.mem_drawn
  edges_eq := s.pipeline.edges_eq_drawn
  proxies_inside _ _ _ := Pipeline.proxiesOf_of_owner?_eq
  proxies_across _ _ _ _ _ := Pipeline.proxiesOf_across
  proxies_out _ _ _ _ := Pipeline.proxiesOf_out
  proxies_in _ _ _ _ := Pipeline.proxiesOf_in
  label_eq e he := by
    obtain ⟨u, v, x, hx, -⟩ := hs.lawful.stream_of_mem_edges he
    refine ⟨x, hx, ?_⟩
    rw [label, hx]
    rfl
  nodup_ids := hs.lawful.nodup_ids
  edge?_eq_some _ _ := hs.lawful.edge?_eq_some_iff
  edge?_eq_none id := by
    rw [Pipeline.edge?, List.find?_eq_none]
    simp only [beq_iff_eq]
  incoming_eq := s.pipeline.incoming_eq_filter
  outgoing_eq := s.pipeline.outgoing_eq_filter
  nodup_incoming g := by
    rw [s.pipeline.incoming_eq_filter]
    exact hs.lawful.nodup_ids.of_map.filter _
  nodup_outgoing g := by
    rw [s.pipeline.outgoing_eq_filter]
    exact hs.lawful.nodup_ids.of_map.filter _
  proxy_mem _ := Pipeline.mem_incoming_or_outgoing

/-- Of every scene that is built, the edges are those of the streams that are drawn, in
    order, the identifiers tell them apart, and the graphs list the proxies among them. -/
theorem arena_of_build {t : Trace} {settings : Settings}
    (hbuild : Scene.build t settings = .ok s) : ∃ drawn, s.Arena drawn :=
  ⟨_, (sound_of_build hbuild).arena⟩

/-- Of the three streams between the pairs, the one in the middle runs from graph to graph: it
    has three proxies, and each graph lists two of them. -/
theorem arena_pairs : ∃ s, Scene.build pairs {} = .ok s ∧ (∃ drawn, s.Arena drawn) ∧
    s.pipeline.edges.map (·.id) = [.stream ⟨1⟩, .stream ⟨2⟩, .stream ⟨3⟩,
      .proxy (.graph ⟨0⟩) ⟨2⟩ (.graph ⟨1⟩), .proxy (.graph ⟨0⟩) ⟨2⟩ (.codec ⟨2⟩),
      .proxy (.codec ⟨1⟩) ⟨2⟩ (.graph ⟨1⟩)] ∧
    (s.pipeline.outgoing ⟨0⟩).map (·.id) =
      [.proxy (.graph ⟨0⟩) ⟨2⟩ (.graph ⟨1⟩), .proxy (.graph ⟨0⟩) ⟨2⟩ (.codec ⟨2⟩)] ∧
    (s.pipeline.incoming ⟨1⟩).map (·.id) =
      [.proxy (.graph ⟨0⟩) ⟨2⟩ (.graph ⟨1⟩), .proxy (.codec ⟨1⟩) ⟨2⟩ (.graph ⟨1⟩)] := by
  have hrun : (Scene.build pairs {}).toOption.any (fun s =>
      s.pipeline.edges.map (·.id) = [.stream ⟨1⟩, .stream ⟨2⟩, .stream ⟨3⟩,
        .proxy (.graph ⟨0⟩) ⟨2⟩ (.graph ⟨1⟩), .proxy (.graph ⟨0⟩) ⟨2⟩ (.codec ⟨2⟩),
        .proxy (.codec ⟨1⟩) ⟨2⟩ (.graph ⟨1⟩)] &&
      (s.pipeline.outgoing ⟨0⟩).map (·.id) =
        [.proxy (.graph ⟨0⟩) ⟨2⟩ (.graph ⟨1⟩), .proxy (.graph ⟨0⟩) ⟨2⟩ (.codec ⟨2⟩)] &&
      (s.pipeline.incoming ⟨1⟩).map (·.id) =
        [.proxy (.graph ⟨0⟩) ⟨2⟩ (.graph ⟨1⟩), .proxy (.codec ⟨1⟩) ⟨2⟩ (.graph ⟨1⟩)]) = true := by
    decide +kernel
  obtain ⟨s, hs, hq⟩ := exists_of_any_toOption hrun
  simp only [Bool.and_eq_true, decide_eq_true_eq] at hq
  obtain ⟨⟨hedges, houtgoing⟩, hincoming⟩ := hq
  exact ⟨s, hs, arena_of_build hs, hedges, houtgoing, hincoming⟩

end Scene

end TraceFold
