/-
  TraceFold.Proofs.Folding.Reachable

  What holds of every folding that a scene can get into.  Every toggle is made of moves,
  and the moves keep a folding `Regular`: it has a fold for every node, the root stays on
  screen, and a graph is hidden only if it owns a codec below the root.  So the start is
  regular, and whatever is done next (`Reachable.regular`).
-/

import TraceFold.Action.Basic
import TraceFold.Proofs.Folding.Moves
import TraceFold.Proofs.Folding.Walk
import TraceFold.Proofs.Scene.Build

namespace TraceFold

open Dag (Child)

variable {s : Scene} {f f' : Folding} {m : Move} {c u v : CodecId} {g : GraphId}
  {cs : List CodecId} {gs : List GraphId}

namespace Scene

theorem mem_ownersOf : g ∈ s.ownersOf cs ↔ ∃ c ∈ cs, s.pipeline.owner? c = some g := by
  simp [ownersOf]

namespace Sound

variable (h : s.Sound)
include h

/-- A codec below another one has a place in the tables. -/
theorem below_known (huv : s.Below u v) : v.index < s.pipeline.codecs.size := by
  obtain ⟨w, -, hwv⟩ := Relation.TransGen.tail'_iff.1 huv
  obtain ⟨i, hi⟩ := h.child_iff.1 hwv
  exact h.lawful.target_known i w v hi

/-- Nothing feeds the root, so it is below no codec. -/
theorem ne_root_of_below (huv : s.Below u v) : v ≠ .root := by
  rintro rfl
  obtain ⟨w, -, hw⟩ := Relation.TransGen.tail'_iff.1 huv
  obtain ⟨i, hi⟩ := h.child_iff.1 hw
  exact h.lawful.root_unfed i w hi

/-- No codec is below itself. -/
theorem ne_of_below (huv : s.Below u v) : v ≠ u := by
  rintro rfl
  exact h.sorted.acyclic v huv

/-- Every codec but the root is below the root. -/
theorem below_root (hc : c.index < s.pipeline.codecs.size)
    (hroot : c ≠ .root) : s.Below .root c := by
  induction hplace : s.dag.order.idxOf c using Nat.strongRecOn generalizing c with
  | _ place ih =>
    obtain ⟨i, u, hdraws⟩ := h.lawful.fed c hc hroot
    have hchild : Dag.Child s.dag.children u c := h.child_iff.2 ⟨i, hdraws⟩
    by_cases hu : u = .root
    · exact .single (hu ▸ hchild)
    · -- the codec that feeds this one comes earlier in the order
      have hbefore := h.sorted.before u c hchild
      have hbelow := ih _ (hplace ▸ hbefore) (h.lawful.source_known i u c hdraws) hu rfl
      exact hbelow.tail hchild

end Sound

/-! ## What an action does -/

/-- A toggle of a codec that there is never fails. -/
theorem apply_toggle_codec (hc : c.index < s.pipeline.codecs.size) :
    s.apply f (.toggle (.codec c)) = .ok (s.toggleBelow f c) := by
  simp [apply, knownCodec, hc, Except.map]

theorem exists_of_map_eq_ok {α β ε : Type} {x : Except ε α} {h : α → β} {b : β}
    (hx : x.map h = .ok b) : ∃ a, x = .ok a ∧ h a = b := by
  cases x with
  | error e => cases hx
  | ok a => exact ⟨a, rfl, Except.ok.inj hx⟩

theorem map_eq_error_iff {α β ε : Type} {x : Except ε α} {h : α → β} {e : ε} :
    x.map h = .error e ↔ x = .error e := by
  cases x <;> simp [Except.map]

/-- A collapsed graph is asked for its first codec.  That asks for the graph once more, with
    the same answer. -/
theorem toggleGraph_of_collapsed (hcollapsed : f.graphCollapsed g) :
    s.toggleGraph f g = (s.firstCodec g).map (s.expandGraph f g) := by
  unfold toggleGraph firstCodec
  rw [hcollapsed]
  cases s.knownGraph g with
  | error e => rfl
  | ok graph => cases graph.first? <;> rfl

/-- A toggle of a graph that is not collapsed only asks whether there is such a graph. -/
theorem toggleGraph_of_open (hopen : f.graphCollapsed g = false) :
    s.toggleGraph f g = (s.knownGraph g).map fun _ => s.collapseGraph f g := by
  unfold toggleGraph
  rw [hopen]
  cases s.knownGraph g <;> rfl

/-- A graph that is toggled is expanded from its first codec on, or collapsed. -/
theorem toggleGraph_eq_ok {r : Folding × List NodeId} (h : s.toggleGraph f g = .ok r) :
    (f.graphCollapsed g ∧ ∃ first, s.firstCodec g = .ok first ∧ r = s.expandGraph f g first) ∨
      (f.graphCollapsed g = false ∧ r = s.collapseGraph f g) := by
  cases hcollapsed : f.graphCollapsed g with
  | true =>
    rw [toggleGraph_of_collapsed hcollapsed] at h
    obtain ⟨first, hfirst, rfl⟩ := exists_of_map_eq_ok h
    exact Or.inl ⟨rfl, first, hfirst, rfl⟩
  | false =>
    rw [toggleGraph_of_open hcollapsed] at h
    obtain ⟨-, -, rfl⟩ := exists_of_map_eq_ok h
    exact Or.inr ⟨rfl, rfl⟩

/-! ## Regular foldings -/

/-- A folding with one fold for each node of a scene, whatever these are. -/
structure Fits (s : Scene) (f : Folding) : Prop where
  size_codecs : f.codecs.size = s.pipeline.codecs.size
  size_graphs : f.graphs.size = s.pipeline.graphs.size

/-- No move changes how many folds there are. -/
theorem Fits.moveCodecs (h : s.Fits f) (m : Move) (cs : List CodecId) :
    s.Fits (f.moveCodecs m cs) where
  size_codecs := by rw [Folding.size_codecs_moveCodecs, h.size_codecs]
  size_graphs := by rw [Folding.graphs_moveCodecs, h.size_graphs]

theorem Fits.moveGraphs (h : s.Fits f) (m : Move) (gs : List GraphId) :
    s.Fits (f.moveGraphs m gs) where
  size_codecs := by rw [Folding.codecs_moveGraphs, h.size_codecs]
  size_graphs := by rw [Folding.size_graphs_moveGraphs, h.size_graphs]

theorem Fits.expandBelow (hf : s.Fits f) (c : CodecId) : s.Fits (s.expandBelow f c).1 :=
  ((hf.moveCodecs .expand [c]).moveGraphs .show _).moveCodecs .show _

theorem Fits.collapseBelow (hf : s.Fits f) (c : CodecId) : s.Fits (s.collapseBelow f c).1 :=
  ((hf.moveCodecs .collapse [c]).moveCodecs .hide _).moveGraphs .hide _

theorem Fits.expandLevel (hf : s.Fits f) (c : CodecId) : s.Fits (s.expandLevel f c).1 :=
  ((((hf.moveCodecs .expand [c]).moveGraphs .show _).moveGraphs .collapse _).moveCodecs
    .show _).moveCodecs .collapse _

theorem Fits.collapseGraph (hf : s.Fits f) (g : GraphId) : s.Fits (s.collapseGraph f g).1 :=
  (hf.moveGraphs .collapse [g]).moveCodecs .hide _

theorem Fits.expandGraph (hf : s.Fits f) (g : GraphId) (first : CodecId) :
    s.Fits (s.expandGraph f g first).1 :=
  (hf.moveGraphs .expand [g]).moveCodecs .show _

/-- Nor do toggles, which are made of moves. -/
theorem Fits.hideGraph (hf : s.Fits f) (g : GraphId) (first : CodecId) :
    s.Fits (s.hideGraph f g first).1 := by
  have hbelow : s.Fits (if f.codecCollapsed first then f else (s.collapseBelow f first).1) := by
    split
    · exact hf
    · exact hf.collapseBelow first
  exact (hbelow.moveGraphs .collapse [g]).moveCodecs .hide [first]

/-- Of the foldings that fit a scene, no two have the same nodes on screen and the same nodes
    collapsed. -/
theorem Fits.eq_of_flags (hf : s.Fits f) (hf' : s.Fits f')
    (hcv : ∀ c, f.codecVisible c ↔ f'.codecVisible c)
    (hcc : ∀ c, f.codecCollapsed c ↔ f'.codecCollapsed c)
    (hgv : ∀ g, f.graphVisible g ↔ f'.graphVisible g)
    (hgc : ∀ g, f.graphCollapsed g ↔ f'.graphCollapsed g) : f = f' := by
  have hcodecs : f.codecs = f'.codecs := by
    refine Folding.folds_eq_of_flags (hf.size_codecs.trans hf'.size_codecs.symm) ?_ ?_
    · exact fun i => Bool.eq_iff_iff.2 (hcv ⟨i⟩)
    · exact fun i => Bool.eq_iff_iff.2 (hcc ⟨i⟩)
  have hgraphs : f.graphs = f'.graphs := by
    refine Folding.folds_eq_of_flags (hf.size_graphs.trans hf'.size_graphs.symm) ?_ ?_
    · exact fun i => Bool.eq_iff_iff.2 (hgv ⟨i⟩)
    · exact fun i => Bool.eq_iff_iff.2 (hgc ⟨i⟩)
  cases f
  cases f'
  rw [Folding.mk.injEq]
  exact ⟨hcodecs, hgraphs⟩

/-- A codec that is as visible as before and as collapsed has the fold that it had. -/
theorem Fits.codec?_eq (hf : s.Fits f) (hf' : s.Fits f')
    (hvisible : f'.codecVisible c = f.codecVisible c)
    (hcollapsed : f'.codecCollapsed c = f.codecCollapsed c) : f'.codec? c = f.codec? c := by
  refine Folding.fold?_eq_of_flags ?_ hvisible hcollapsed
  rw [Folding.isSome_codec?, Folding.isSome_codec?, hf.size_codecs, hf'.size_codecs]

/-- Two foldings that fit fold a graph in the same way if their flags for it are the same. -/
theorem Fits.graph?_eq (hf : s.Fits f) (hf' : s.Fits f')
    (hvisible : f'.graphVisible g = f.graphVisible g)
    (hcollapsed : f'.graphCollapsed g = f.graphCollapsed g) : f'.graph? g = f.graph? g := by
  refine Folding.fold?_eq_of_flags ?_ hvisible hcollapsed
  rw [Folding.isSome_graph?, Folding.isSome_graph?, hf.size_graphs, hf'.size_graphs]

/-- What holds of every folding that a scene gets into. -/
structure Regular (s : Scene) (f : Folding) : Prop extends s.Fits f where
  root_visible : f.codecVisible .root
  /-- A graph that is hidden owns a codec other than the root. -/
  hidden_graph : ∀ g : GraphId, g.index < s.pipeline.graphs.size → f.graphVisible g = false →
    ∃ c, s.pipeline.owner? c = some g ∧ c ≠ .root

namespace Regular

/-- Moves of codecs keep the root on screen, and do nothing to graphs. -/
theorem moveCodecs (h : s.Regular f) (m : Move) (cs : List CodecId) :
    s.Regular (f.moveCodecs m cs) where
  toFits := h.toFits.moveCodecs m cs
  root_visible := by cases m <;> simp [h.root_visible]
  hidden_graph g hg hhidden := h.hidden_graph g hg (by simpa using hhidden)

theorem moveCodec (h : s.Regular f) (m : Move) (c : CodecId) : s.Regular (f.moveCodec m c) :=
  h.moveCodecs m [c]

/-- Graphs may be moved in any way, but hidden only if they own a codec other than the
    root. -/
theorem moveGraphs (h : s.Regular f) (m : Move) (gs : List GraphId)
    (hgs : m = .hide → ∀ g ∈ gs, ∃ c, s.pipeline.owner? c = some g ∧ c ≠ .root) :
    s.Regular (f.moveGraphs m gs) where
  toFits := h.toFits.moveGraphs m gs
  root_visible := by simp [h.root_visible]
  hidden_graph g hg hhidden := by
    by_cases hvisible : f.graphVisible g
    · -- the move has hidden the graph, so it is one that may be hidden
      cases m with
      | hide =>
        refine hgs rfl g ?_
        by_contra hmem
        rw [Folding.graphVisible_hide.2 ⟨hvisible, hmem⟩] at hhidden
        cases hhidden
      | «show» =>
        rw [Folding.graphVisible_show.2 (Or.inl hvisible)] at hhidden
        cases hhidden
      | collapse =>
        rw [Folding.graphVisible_collapse, hvisible] at hhidden
        cases hhidden
      | expand =>
        rw [Folding.graphVisible_expand, hvisible] at hhidden
        cases hhidden
    · exact h.hidden_graph g hg (Bool.eq_false_iff.2 hvisible)

/-- A move that hides no graph keeps a folding regular. -/
theorem moveGraph (h : s.Regular f) (m : Move) (g : GraphId) (hm : m ≠ .hide) :
    s.Regular (f.moveGraph m g) :=
  h.moveGraphs m [g] fun he => absurd he hm

/-! ## Toggles keep foldings regular -/

theorem expandBelow (h : s.Regular f) (c : CodecId) : s.Regular (s.expandBelow f c).1 :=
  ((h.moveCodec .expand c).moveGraphs .show _ nofun).moveCodecs .show _

/-- Collapsing hides graphs of which no codec is left on screen. -/
theorem collapseBelow (h : s.Regular f) (hs : s.Sound) (c : CodecId) :
    s.Regular (s.collapseBelow f c).1 := by
  -- a graph is hidden here for a codec below another one, which cannot be the root
  refine ((h.moveCodec .collapse c).moveCodecs .hide _).moveGraphs .hide _ fun _ g hg => ?_
  obtain ⟨x, hx, hown⟩ := mem_ownersOf.1 (List.mem_filter.1 hg).1
  exact ⟨x, hown, hs.ne_root_of_below (mem_descendants.1 hx).below_start⟩

theorem toggleBelow (h : s.Regular f) (hs : s.Sound) (c : CodecId) :
    s.Regular (s.toggleBelow f c).1 := by
  unfold Scene.toggleBelow
  split
  · exact h.expandBelow c
  · exact h.collapseBelow hs c

theorem expandLevel (h : s.Regular f) (c : CodecId) : s.Regular (s.expandLevel f c).1 :=
  ((((h.moveCodec .expand c).moveGraphs .show _ nofun).moveGraphs .collapse _ nofun).moveCodecs
    .show _).moveCodecs .collapse _

theorem collapseGraph (h : s.Regular f) (g : GraphId) : s.Regular (s.collapseGraph f g).1 :=
  (h.moveGraph .collapse g nofun).moveCodecs .hide _

theorem expandGraph (h : s.Regular f) (g : GraphId) (first : CodecId) :
    s.Regular (s.expandGraph f g first).1 :=
  (h.moveGraph .expand g nofun).moveCodecs .show _

/-- Hiding a graph hides its first codec too, which leaves less on screen. -/
theorem hideGraph (h : s.Regular f) (hs : s.Sound) (g : GraphId) (first : CodecId) :
    s.Regular (s.hideGraph f g first).1 := by
  have hbelow : s.Regular (if f.codecCollapsed first then f else (s.collapseBelow f first).1) := by
    split
    · exact h
    · exact h.collapseBelow hs first
  exact (hbelow.moveGraph .collapse g nofun).moveCodec .hide first

theorem restoreGraph (h : s.Regular f) (g : GraphId) (first : CodecId) :
    s.Regular (s.restoreGraph f g first).1 := by
  have hshown : s.Regular ((f.moveGraph .expand g).moveGraph .show g) :=
    (h.moveGraph .expand g nofun).moveGraph .show g nofun
  simp only [Scene.restoreGraph]
  split
  · exact (hshown.expandBelow first).moveCodec .show first
  · exact (hshown.moveCodecs .show _).moveCodec .show first

theorem toggleHidden (h : s.Regular f) (hs : s.Sound) (g : GraphId) (first : CodecId) :
    s.Regular (s.toggleHidden f g first).1 := by
  unfold Scene.toggleHidden
  split
  · exact h.restoreGraph g first
  · exact h.hideGraph hs g first

/-- Settling graphs hides or restores them, one after the other. -/
theorem settleAll (h : s.Regular f) (hs : s.Sound) (collapse : Bool) (gs : List GraphId) :
    s.Regular (s.settleAll collapse f gs).1 := by
  induction gs generalizing f with
  | nil => exact h
  | cons g gs ih =>
    unfold Scene.settleAll
    split
    · exact ih h
    · rename_i f' hsettle
      unfold settleStandard? at hsettle
      split at hsettle
      · obtain ⟨first, -, rfl⟩ := Option.map_eq_some_iff.1 hsettle
        exact ih (h.toggleHidden hs g first)
      · cases hsettle

theorem foldAt (h : s.Regular f) (hs : s.Sound) (c : CodecId) : s.Regular (s.foldAt f c) := by
  unfold Scene.foldAt
  split
  · exact h
  · split
    · exact h.toggleHidden hs _ c
    · exact h

/-! ## Runs -/

/-- With everything shown, a folding is regular. -/
theorem unfolded (hs : s.Sound) : s.Regular (Folding.unfolded s.pipeline) where
  size_codecs := by simp [Folding.unfolded]
  size_graphs := by simp [Folding.unfolded]
  root_visible := Folding.codecVisible_unfolded.2 hs.lawful.root_known
  hidden_graph g hg hhidden := by
    rw [Folding.graphVisible_unfolded.2 hg] at hhidden
    cases hhidden

/-- A scene starts with everything shown, and then some graphs are hidden. -/
theorem start (hs : s.Sound) : s.Regular s.start := by
  unfold Scene.start
  split
  · exact List.foldlRecOn _ _ (unfolded hs) fun f hf c _ => hf.foldAt hs c
  · exact unfolded hs

/-- Every action keeps a folding regular. -/
theorem apply (h : s.Regular f) (hs : s.Sound) {a : Action} {r : Folding × List NodeId}
    (ha : s.apply f a = .ok r) : s.Regular r.1 := by
  cases a with
  | toggle node =>
    cases node with
    | codec c =>
      obtain ⟨c', -, rfl⟩ := exists_of_map_eq_ok ha
      exact h.toggleBelow hs c'
    | graph g =>
      rcases toggleGraph_eq_ok ha with ⟨-, first, -, rfl⟩ | ⟨-, rfl⟩
      · exact h.expandGraph g first
      · exact h.collapseGraph g
  | expand c =>
    obtain ⟨c', -, rfl⟩ := exists_of_map_eq_ok ha
    exact h.expandLevel c'
  | hide g =>
    obtain ⟨first, -, rfl⟩ := exists_of_map_eq_ok ha
    exact h.toggleHidden hs g first
  | standard collapse =>
    obtain rfl := Except.ok.inj ha
    exact h.settleAll hs collapse _

end Regular

/-- Unless standard graphs are to be collapsed, a scene starts with nothing folded. -/
theorem start_eq_unfolded (hoff : s.settings.collapseStandardGraphs = false) :
    s.start = Folding.unfolded s.pipeline := by
  simp [Scene.start, hoff]

/-- A folding that actions lead to from the start, one after the other. -/
inductive Reachable (s : Scene) : Folding → Prop
  | start : Reachable s s.start
  | step {f f' : Folding} {a : Action} {nodes : List NodeId} :
      Reachable s f → s.apply f a = .ok (f', nodes) → Reachable s f'

theorem Reachable.toggleBelow (h : s.Reachable f) (hc : c.index < s.pipeline.codecs.size) :
    s.Reachable (s.toggleBelow f c).1 :=
  .step h (apply_toggle_codec hc)

theorem Reachable.toggleStandard (h : s.Reachable f) (collapse : Bool) :
    s.Reachable (s.toggleStandard collapse f).1 :=
  .step h (a := .standard collapse) rfl

/-- Every folding that can be reached is regular. -/
theorem Reachable.regular (h : s.Reachable f) (hs : s.Sound) : s.Regular f := by
  induction h with
  | start => exact .start hs
  | step _ ha ih => exact ih.apply hs ha

end Scene

end TraceFold
