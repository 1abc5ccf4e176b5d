/-
  TraceFold.Proofs.Picture.Pick

  Which edge shows a stream.  A codec is represented by itself if it is visible, and else
  by its graph if that is (`rep?`).  A stream is shown exactly if both of its codecs are
  represented and it does not run inside a graph with one of them hidden
  (`Represented`); the edge joins the two representatives (`pick_eq`).  In particular the
  one proxy that has to be there always is, and so is the stream's own edge (`edge?_stream`).
-/

import TraceFold.Picture.Project
import TraceFold.Proofs.Lists
import TraceFold.Proofs.Scene.Build

namespace TraceFold

variable {p : Pipeline} {s : Scene} {f : Folding} {i : StreamId} {u v : CodecId} {g : GraphId}

/-! ## The proxies of a stream -/

namespace Pipeline

/-- The entries that a stream gives a graph carry this stream. -/
theorem stream_of_mem_entries {e : Edge} (h : e ∈ p.entries g i u v) : e.stream = i := by
  unfold entries at h
  split at h
  · cases h
  · rcases List.mem_append.1 h with h | h
    · obtain ⟨other, -, rfl⟩ := by simpa using h
      rfl
    · rw [List.mem_singleton.1 h]
      rfl

theorem stream_of_mem_exits {e : Edge} (h : e ∈ p.exits g i u v) : e.stream = i := by
  unfold exits at h
  split at h
  · cases h
  · rcases List.mem_append.1 h with h | h
    · obtain ⟨other, -, rfl⟩ := by simpa using h
      rfl
    · rw [List.mem_singleton.1 h]
      rfl

/-- The streams that are drawn come in ascending order. -/
theorem Lawful.ascending_drawnStreams (h : p.Lawful) :
    p.drawnStreams.Pairwise fun a b => a.1.id.index < b.1.id.index := by
  have hids : p.streams.toList.Pairwise fun a b => a.id.index < b.id.index := by
    refine List.pairwise_iff_getElem.2 fun j k hj hk hjk => ?_
    rw [h.stream_id ⟨j⟩ _ (by simp [stream?]), h.stream_id ⟨k⟩ _ (by simp [stream?])]
    exact hjk
  refine List.pairwise_filterMap.2 (hids.imp fun hlt a ha b hb => ?_)
  obtain ⟨-, -, rfl⟩ := Option.map_eq_some_iff.1 ha
  obtain ⟨-, -, rfl⟩ := Option.map_eq_some_iff.1 hb
  exact hlt

theorem Lawful.pairwise_drawnStreams (h : p.Lawful) :
    p.drawnStreams.Pairwise fun a b => a.1.id ≠ b.1.id :=
  h.ascending_drawnStreams.imp fun hlt heq => Nat.ne_of_lt hlt (congrArg StreamId.index heq)

/-- The own edge of a stream that is drawn is found by the stream. -/
theorem Lawful.edge?_stream (h : p.Lawful) (hd : p.Draws i u v) :
    p.edge? (.stream i) = some (.between i u v) := by
  have hmem : Edge.between i u v ∈ p.codecEdges := by
    obtain ⟨x, hx, hends⟩ := hd
    refine List.mem_map.2 ⟨(x, u, v), mem_drawnStreams.2 ⟨i, hx, hends⟩, ?_⟩
    show Edge.between x.id u v = .between i u v
    rw [h.stream_id i x hx]
  -- an edge with the stream's identifier joins the ends of the stream
  have honly : ∀ e ∈ p.codecEdges, e.id == .stream i → e = .between i u v := by
    intro e he hid
    obtain ⟨⟨x, w, z⟩, hx, rfl⟩ := List.mem_map.1 he
    obtain ⟨j, hj, hends⟩ := mem_drawnStreams.1 hx
    obtain rfl : x.id = i := EdgeId.stream.inj (eq_of_beq hid)
    obtain rfl : x.id = j := h.stream_id j x hj
    obtain ⟨rfl, rfl⟩ := hd.unique ⟨x, hj, hends⟩
    rfl
  have hfind : p.codecEdges.find? (fun e => e.id == .stream i) = some (.between i u v) := by
    refine (find?_eq_some_iff_of_unique ?_).2 ⟨hmem, beq_self_eq_true _⟩
    intro a ha b hb hida hidb
    rw [honly a ha hida, honly b hb hidb]
  rw [edge?, edges, List.find?_append, hfind]
  rfl

/-- Of the edges that streams give a graph, those that carry one stream. -/
theorem Lawful.filter_flatMap (h : p.Lawful) (hd : p.Draws i u v)
    {f : StreamId → CodecId → CodecId → List Edge}
    (hf : ∀ j w x, ∀ e ∈ f j w x, e.stream = j) (q : Edge → Bool) :
    (p.drawnStreams.flatMap fun (s, w, x) => f s.id w x).filter (fun e => e.stream == i && q e)
      = (f i u v).filter q := by
  obtain ⟨x, hx, hends⟩ := hd
  have hid := h.stream_id i x hx
  have hmem : (x, u, v) ∈ p.drawnStreams := mem_drawnStreams.2 ⟨i, hx, hends⟩
  rw [List.filter_flatMap, flatMap_eq_of_unique (fun y => y.1.id) h.pairwise_drawnStreams hmem]
  -- what the stream itself gives all carries it, and what others give does not
  · show (f x.id u v).filter _ = _
    rw [hid]
    refine List.filter_congr fun e he => ?_
    simp [hf _ _ _ e he]
  · intro y _ hne
    refine List.filter_eq_nil_iff.2 fun e he => ?_
    have hstream := hf _ _ _ e he
    simp only [hid] at hne
    simp [hstream, hne]

/-- Of the entries of a graph, those that carry a stream are the ones that this stream gives it. -/
theorem Lawful.filter_incoming (h : p.Lawful) (hd : p.Draws i u v) (q : Edge → Bool) :
    (p.incoming g).filter (fun e => e.stream == i && q e) = (p.entries g i u v).filter q :=
  h.filter_flatMap hd (f := p.entries g) (fun _ _ _ _ => stream_of_mem_entries) q

theorem Lawful.filter_outgoing (h : p.Lawful) (hd : p.Draws i u v) (q : Edge → Bool) :
    (p.outgoing g).filter (fun e => e.stream == i && q e) = (p.exits g i u v).filter q :=
  h.filter_flatMap hd (f := p.exits g) (fun _ _ _ _ => stream_of_mem_exits) q

end Pipeline

namespace Scene

/-! ## Finding the one proxy -/

/-- A stream from a codec into a graph that does not own the codec has one entry there. -/
theorem entryFrom_codec (h : s.pipeline.Lawful) (hd : s.pipeline.Draws i u v)
    (hv : s.pipeline.owner? v = some g) (hu : s.pipeline.owner? u ≠ some g) :
    s.entryFrom g (.codec u) i = .ok (.proxy i (.codec u) (.graph g)) := by
  have hfilter : (s.pipeline.entries g i u v).filter (fun e => e.source == .codec u)
      = [Edge.proxy i (.codec u) (.graph g)] := by
    cases hown : s.pipeline.owner? u with
    | none => simp [Pipeline.entries, Edge.proxy, hv, hown]
    | some left =>
        have hne : left ≠ g := fun heq => hu (heq ▸ hown)
        simp [Pipeline.entries, Edge.proxy, hv, hown, hne]
  simp [entryFrom, onlyProxy, h.filter_incoming hd, hfilter]

/-- A stream from one graph into another has one entry there. -/
theorem entryFrom_graph (h : s.pipeline.Lawful) (hd : s.pipeline.Draws i u v) {left : GraphId}
    (hv : s.pipeline.owner? v = some g) (hu : s.pipeline.owner? u = some left) (hne : left ≠ g) :
    s.entryFrom g (.graph left) i = .ok (.proxy i (.graph left) (.graph g)) := by
  have hfilter : (s.pipeline.entries g i u v).filter (fun e => e.source == .graph left)
      = [Edge.proxy i (.graph left) (.graph g)] := by
    simp [Pipeline.entries, Edge.proxy, hv, hu, hne]
  simp [entryFrom, onlyProxy, h.filter_incoming hd, hfilter]

/-- A stream from a graph to a codec that the graph does not own has one exit there. -/
theorem exitTo_codec (h : s.pipeline.Lawful) (hd : s.pipeline.Draws i u v)
    (hu : s.pipeline.owner? u = some g) (hv : s.pipeline.owner? v ≠ some g) :
    s.exitTo g (.codec v) i = .ok (.proxy i (.graph g) (.codec v)) := by
  have hfilter : (s.pipeline.exits g i u v).filter (fun e => e.target == .codec v)
      = [Edge.proxy i (.graph g) (.codec v)] := by
    cases hown : s.pipeline.owner? v with
    | none => simp [Pipeline.exits, Edge.proxy, hu, hown]
    | some right =>
        have hne : right ≠ g := fun heq => hv (heq ▸ hown)
        simp [Pipeline.exits, Edge.proxy, hu, hown, hne]
  simp [exitTo, onlyProxy, h.filter_outgoing hd, hfilter]

/-! ## Representatives -/

/-- The node that stands for a codec: the codec itself if it is visible, else its graph
    if that is. -/
def rep? (s : Scene) (f : Folding) (c : CodecId) : Option NodeId :=
  if f.codecVisible c then some (.codec c) else (s.visibleOwner? f c).map .graph

/-- One graph owns both codecs. -/
def SameOwner (s : Scene) (u v : CodecId) : Prop :=
  ∃ g, s.pipeline.owner? u = some g ∧ s.pipeline.owner? v = some g

/-- A stream between two codecs is to be shown: both are represented, and it does not run
    inside a graph of which it has a hidden end. -/
structure Represented (s : Scene) (f : Folding) (u v : CodecId) : Prop where
  source : ∃ n, s.rep? f u = some n
  target : ∃ n, s.rep? f v = some n
  not_inside : ¬(s.SameOwner u v ∧ (f.codecVisible u = false ∨ f.codecVisible v = false))

/-- The edge that carries a stream from one node to another. -/
def joining (i : StreamId) : NodeId → NodeId → Edge
  | .codec u, .codec v => .between i u v
  | source, target => .proxy i source target

@[simp] theorem joining_stream (i : StreamId) (source target : NodeId) :
    (joining i source target).stream = i := by
  cases source <;> cases target <;> rfl

@[simp] theorem joining_ends (i : StreamId) (source target : NodeId) :
    (joining i source target).ends = (source, target) := by
  cases source <;> cases target <;> rfl

/-- The graph that is asked for owns the codec and is on screen. -/
theorem visibleOwner?_eq_some :
    s.visibleOwner? f u = some g ↔ s.pipeline.owner? u = some g ∧ f.graphVisible g := by
  simp [visibleOwner?, Option.filter_eq_some_iff]

/-! ## Picking the edge of a stream -/

/-- The edge that a stream is to be shown by. -/
def shown? (s : Scene) (f : Folding) (i : StreamId) (u v : CodecId) : Option Edge :=
  let inside := (s.pipeline.owner? u).isSome && s.pipeline.owner? v == s.pipeline.owner? u
  if inside && !(f.codecVisible u && f.codecVisible v) then none
  else (s.rep? f u).bind fun source => (s.rep? f v).map (joining i source)

theorem inside_iff : ((s.pipeline.owner? u).isSome && s.pipeline.owner? v == s.pipeline.owner? u)
    = true ↔ s.SameOwner u v := by
  cases hu : s.pipeline.owner? u <;> simp [SameOwner, hu]

theorem owner?_ne_of_not_sameOwner (hin : ¬s.SameOwner u v) (hu : s.pipeline.owner? u = some g) :
    s.pipeline.owner? v ≠ some g :=
  fun hv => hin ⟨g, hu, hv⟩

/-- The edge that is picked for a stream joins the representatives of its codecs. -/
theorem pick_eq (h : s.pipeline.Lawful) (hd : s.pipeline.Draws i u v) :
    s.pick f i u v = .ok (s.shown? f i u v) := by
  unfold pick shown?
  by_cases hin : s.SameOwner u v
  · -- inside a graph only the stream's own edge is ever picked
    rw [inside_iff.2 hin]
    cases hu : f.codecVisible u with
    | true => cases hv : f.codecVisible v <;> simp [rep?, hu, hv, joining, h.edge?_stream hd]
    | false => cases s.visibleOwner? f u <;> simp
  · rw [Bool.eq_false_iff.2 (mt inside_iff.1 hin)]
    cases hu : f.codecVisible u with
    | true =>
      cases hv : f.codecVisible v with
      | true => simp [rep?, hu, hv, joining, h.edge?_stream hd]
      | false =>
        -- the stream enters the graph of its target from the source itself
        cases hg : s.visibleOwner? f v with
        | none => simp [rep?, hv, hg]
        | some right =>
          have hown := (visibleOwner?_eq_some.1 hg).1
          have hne : s.pipeline.owner? u ≠ some right := fun heq => hin ⟨right, heq, hown⟩
          simp [rep?, hu, hv, hg, joining, entryFrom_codec h hd hown hne, Except.map]
    | false =>
      cases hl : s.visibleOwner? f u with
      | none => simp [rep?, hu, hl]
      | some left =>
        have hleft := (visibleOwner?_eq_some.1 hl).1
        cases hv : f.codecVisible v with
        | true =>
          -- it leaves the graph of its source for the target itself
          have hne := owner?_ne_of_not_sameOwner hin hleft
          simp [rep?, hu, hv, hl, joining, exitTo_codec h hd hleft hne, Except.map]
        | false =>
          -- it runs from one graph into another
          cases hg : s.visibleOwner? f v with
          | none => simp [rep?, hv, hg]
          | some right =>
            have hown := (visibleOwner?_eq_some.1 hg).1
            have hne : left ≠ right := by
              rintro rfl
              exact hin ⟨left, hleft, hown⟩
            simp [rep?, hu, hv, hl, hg, joining, entryFrom_graph h hd hown hleft hne, Except.map]

/-- A stream has an edge to be shown by if it is to be shown, and the edge joins the two
    representatives. -/
theorem shown?_eq_some {e : Edge} : s.shown? f i u v = some e ↔ s.Represented f u v ∧
    ∃ n m, s.rep? f u = some n ∧ s.rep? f v = some m ∧ e = joining i n m := by
  have hguard : ((s.pipeline.owner? u).isSome && s.pipeline.owner? v == s.pipeline.owner? u
      && !(f.codecVisible u && f.codecVisible v)) = true
      ↔ s.SameOwner u v ∧ (f.codecVisible u = false ∨ f.codecVisible v = false) := by
    rw [Bool.and_eq_true, inside_iff]
    simp
  simp only [shown?]
  split
  · rename_i hblocked
    simp only [reduceCtorEq, false_iff]
    exact fun hshown => hshown.1.not_inside (hguard.1 hblocked)
  · rename_i hfree
    simp only [Option.bind_eq_some_iff, Option.map_eq_some_iff]
    refine ⟨?_, ?_⟩
    · rintro ⟨n, hn, m, hm, rfl⟩
      exact ⟨⟨⟨n, hn⟩, ⟨m, hm⟩, mt hguard.2 hfree⟩, n, m, hn, hm, rfl⟩
    · rintro ⟨-, n, m, hn, hm, rfl⟩
      exact ⟨n, hn, m, hm, rfl⟩

/-- A stream that is to be shown has an edge to be shown by. -/
theorem exists_shown? (h : s.Represented f u v) : ∃ e, s.shown? f i u v = some e := by
  obtain ⟨n, hn⟩ := h.source
  obtain ⟨m, hm⟩ := h.target
  exact ⟨joining i n m, shown?_eq_some.2 ⟨h, n, m, hn, hm, rfl⟩⟩

theorem stream_of_shown? {e : Edge} (h : s.shown? f i u v = some e) : e.stream = i := by
  obtain ⟨-, n, m, -, -, rfl⟩ := shown?_eq_some.1 h
  exact joining_stream i n m

end Scene

end TraceFold
