/-
  TraceFold.Proofs.Action.Regrouped

  Two traces that differ only in how their graphs list the same codecs, each with the same
  one first (`Regrouped`), cannot be told apart on screen.  If one of them gives a scene, so
  does the other, with another table of graphs and nothing else changed; and whatever is done
  to the two scenes, all answers, folds and pictures are the same (`transcript`).
-/

import TraceFold.Proofs.Action.Session
import TraceFold.Proofs.Folding.Regrouped
import TraceFold.Proofs.Lists

namespace TraceFold

/-! ## Sessions on regrouped scenes -/

namespace Session

/-- What is on screen: how every node is folded, and the picture. -/
structure Display where
  folding : Folding
  picture : Except LookupError Picture

def display (x : Session) : Display :=
  ⟨x.folding, x.scene.picture x.folding⟩

/-- The answers of actions that are done one after the other, refused ones among them, each
    with what is on screen afterwards. -/
def transcript (x : Session) : List Action → List (Except LookupError (List NodeId) × Display)
  | [] => []
  | a :: rest => ((x.act a).1, (x.act a).2.display) :: (x.act a).2.transcript rest

/-- A session on the same scene with another table of graphs. -/
def withGraphs (x : Session) (graphs : Array Graph) : Session :=
  ⟨x.scene.withGraphs graphs, x.folding⟩

variable {x : Session} {graphs : Array Graph}

theorem display_withGraphs : (x.withGraphs graphs).display = x.display := by
  have hpicture : (x.withGraphs graphs).scene.picture = x.scene.picture :=
    Scene.picture_withGraphs
  unfold display
  rw [hpicture]
  rfl

/-- An action gives the same answer, and the sessions differ as before. -/
theorem act_withGraphs (h : x.scene.Regroups graphs) (a : Action) :
    (x.withGraphs graphs).act a = ((x.act a).1, (x.act a).2.withGraphs graphs) := by
  have happly : (x.withGraphs graphs).scene.apply = x.scene.apply := h.apply_eq
  rw [act_eq, act_eq, happly]
  change (x.withGraphs graphs).commit (x.scene.apply x.folding a) = _
  cases x.scene.apply x.folding a <;> rfl

theorem transcript_withGraphs (h : x.scene.Regroups graphs) (actions : List Action) :
    (x.withGraphs graphs).transcript actions = x.transcript actions := by
  induction actions generalizing x with
  | nil => rfl
  | cons a rest ih =>
    -- an action leaves the tables alone, so they correspond after it as well
    have hnext : (x.act a).2.scene.Regroups graphs := (scene_act x a).symm ▸ h
    unfold transcript
    rw [act_withGraphs h, display_withGraphs, ih hnext]

end Session

/-! ## Regrouped traces -/

/-- A graph that lists the same codecs, and the same one first.  All else is unchanged. -/
structure GraphRecord.Regrouped (g g' : GraphRecord) : Prop where
  eq_with : g' = { g with codecs := g'.codecs }
  head?_eq : g'.codecs.head? = g.codecs.head?
  mem_iff : ∀ c, c ∈ g'.codecs ↔ c ∈ g.codecs

theorem GraphRecord.Regrouped.graphOf {r r' : GraphRecord} (h : r.Regrouped r') (g : GraphId) :
    (Trace.graphOf g r).Regrouped (Trace.graphOf g r') where
  kind_eq := by
    have hkind : r'.kind = r.kind := by rw [h.eq_with]
    rw [Trace.graphOf, Trace.graphOf, hkind]
  first?_eq := h.head?_eq
  mem_iff := h.mem_iff

theorem Pipeline.pathFrom_withGraphs (p : Pipeline) (graphs : Array Graph) (steps : Nat)
    (c : CodecId) :
    Pipeline.pathFrom { p with graphs } steps c = p.pathFrom steps c := by
  induction steps generalizing c with
  | zero => rfl
  | succ steps ih =>
    unfold pathFrom
    simp only [ih]
    rfl

/-- Of the graphs, the pass over a path asks only how many there are. -/
theorem Pipeline.highlight_withGraphs (p : Pipeline) {graphs : Array Graph}
    (hsize : graphs.size = p.graphs.size) (path : List PathStep) :
    Pipeline.highlight { p with graphs } path = p.highlight path := by
  have hunflagged : Pipeline.unflagged { p with graphs } = p.unflagged := by
    unfold unflagged
    rw [hsize]
    rfl
  unfold highlight
  rw [hunflagged]
  rfl

namespace Trace

/-- A trace with the same codecs and streams, in which each graph lists the same codecs, and
    the same one first. -/
structure Regrouped (t t' : Trace) : Prop where
  codecs_eq : t'.codecs = t.codecs
  streams_eq : t'.streams = t.streams
  graphs : List.Forall₂ GraphRecord.Regrouped t.graphs t'.graphs

namespace Regrouped

variable {t t' : Trace} (h : t.Regrouped t')
include h

theorem mem_membersOf (g : GraphId) (c : CodecId) : c ∈ t'.membersOf g ↔ c ∈ t.membersOf g := by
  unfold membersOf listAt
  rcases getElem?_cases_of_forall₂ h.graphs g.index with
    ⟨hnone, hnone'⟩ | ⟨r, r', hr, hr', hregrouped⟩
  · rw [hnone, hnone']
  · rw [hr, hr']
    exact hregrouped.mem_iff c

/-- A codec keeps its owner. -/
theorem ownerOf_eq : t'.ownerOf = t.ownerOf := by
  funext c
  unfold ownerOf
  rw [findIdx?_eq_of_forall₂ (h.graphs.imp fun r r' hregrouped => ?_)]
  simp only [List.contains_eq_mem, hregrouped.mem_iff]

/-- The checks ask of a graph only which codecs it lists. -/
theorem checked (ht : t.Checked) : t'.Checked := by
  obtain ⟨codecs, streams, graphs⟩ := t
  obtain ⟨codecs', streams', graphs'⟩ := t'
  obtain rfl : codecs' = codecs := h.codecs_eq
  obtain rfl : streams' = streams := h.streams_eq
  exact {
    ht with
    members_known := fun g c hc => ht.members_known g c ((h.mem_membersOf g c).1 hc)
    one_owner := fun c g g' hc hc' =>
      ht.one_owner c g g' ((h.mem_membersOf g c).1 hc) ((h.mem_membersOf g' c).1 hc') }

/-- The tables of codecs and streams are the same, owners among them. -/
theorem tables_eq : t'.tables = { t.tables with graphs := t'.tables.graphs } := by
  have howner := h.ownerOf_eq
  obtain ⟨codecs, streams, graphs⟩ := t
  obtain ⟨codecs', streams', graphs'⟩ := t'
  obtain rfl : codecs' = codecs := h.codecs_eq
  obtain rfl : streams' = streams := h.streams_eq
  have hcodec : ∀ c r, (Trace.mk codecs' streams' graphs').codecOf c r =
      (Trace.mk codecs' streams' graphs).codecOf c r := fun c r => by
    -- all else of a codec is read off the codecs of the trace
    unfold codecOf
    rw [howner]
    rfl
  unfold tables
  simp only [hcodec]
  rfl

theorem size_graphs_eq : t'.tables.graphs.size = t.tables.graphs.size := by
  have hlength := h.graphs.length_eq
  simp [tables, hlength]

theorem regroups {s : Scene} (hpipeline : s.pipeline = t.tables) :
    s.Regroups t'.tables.graphs := by
  intro i
  have hentry : s.pipeline.graphs[i]? = t.graphs[i]?.map (graphOf ⟨i⟩) :=
    hpipeline ▸ graph?_tables t ⟨i⟩
  have hentry' : t'.tables.graphs[i]? = t'.graphs[i]?.map (graphOf ⟨i⟩) := graph?_tables t' ⟨i⟩
  rw [hentry, hentry']
  rcases getElem?_cases_of_forall₂ h.graphs i with
    ⟨hnone, hnone'⟩ | ⟨r, r', hr, hr', hregrouped⟩
  · rw [hnone, hnone']
    exact .none
  · rw [hr, hr']
    exact .some (hregrouped.graphOf ⟨i⟩)

/-- The other trace gives a scene as well, which differs in the table of graphs alone. -/
theorem build_eq {s : Scene} {settings : Settings} (hbuild : Scene.build t settings = .ok s) :
    Scene.build t' settings = .ok (s.withGraphs t'.tables.graphs) := by
  have hchecked : t.Checked := (Scene.build_eq_ok hbuild).1
  have hfault : t.fault? = none := fault?_eq_none_iff.2 hchecked
  have hfault' : t'.fault? = none := fault?_eq_none_iff.2 (h.checked hchecked)
  have hchildren : t'.tables.children = t.tables.children := by
    rw [h.tables_eq]
    rfl
  have hpath : t'.tables.largestPath = t.tables.largestPath := by
    rw [h.tables_eq]
    exact Pipeline.pathFrom_withGraphs _ _ _ _
  have hhighlight : t'.tables.highlight = t.tables.highlight := by
    funext path
    rw [h.tables_eq]
    exact Pipeline.highlight_withGraphs _ h.size_graphs_eq path
  have hunflagged : t'.tables.unflagged = t.tables.unflagged := congrFun hhighlight []
  unfold Scene.build at hbuild ⊢
  simp only [hfault, hfault', hchildren, hpath, hhighlight, hunflagged] at hbuild ⊢
  split at hbuild
  · cases hbuild
  · obtain rfl := Except.ok.inj hbuild
    rw [h.tables_eq]
    rfl

/-- Traces that differ only in how their graphs list the same codecs, the same ones first, give
    scenes that look the same at the start, and on which all actions, one after the other, are
    answered in the same way and leave the same folds and the same picture. -/
theorem same_runs {s : Scene} {settings : Settings}
    (hbuild : Scene.build t settings = .ok s) :
    ∃ s', Scene.build t' settings = .ok s' ∧
      Session.display ⟨s', s'.start⟩ = Session.display ⟨s, s.start⟩ ∧
      ∀ actions, Session.transcript ⟨s', s'.start⟩ actions =
        Session.transcript ⟨s, s.start⟩ actions := by
  have hregroups : s.Regroups t'.tables.graphs := h.regroups (Scene.build_eq_ok hbuild).2.1
  have hsession : (⟨s.withGraphs t'.tables.graphs, (s.withGraphs t'.tables.graphs).start⟩ : Session)
      = Session.withGraphs ⟨s, s.start⟩ t'.tables.graphs := by
    rw [hregroups.start_eq]
    rfl
  refine ⟨s.withGraphs t'.tables.graphs, h.build_eq hbuild, ?_, fun actions => ?_⟩
  · rw [hsession, Session.display_withGraphs]
  · rw [hsession, Session.transcript_withGraphs hregroups]

end Regrouped

/-! ### A row of codecs -/

/-- Four codecs in a row, of which a standard graph owns the last three; what it lists after
    the first one of these is left open. -/
def row (others : List CodecId) : Trace where
  codecs := [
    { name := "first", inputs := [⟨0⟩], outputs := [⟨1⟩] },
    { name := "second", inputs := [⟨1⟩], outputs := [⟨2⟩] },
    { name := "third", inputs := [⟨2⟩], outputs := [⟨3⟩] },
    { name := "fourth", inputs := [⟨3⟩] }]
  streams := List.replicate 4 {}
  graphs := [{ kind := "standard", codecs := ⟨1⟩ :: others }]

theorem regrouped_row {others others' : List CodecId}
    (hmem : ∀ c, c ∈ others' ↔ c ∈ others) : (row others).Regrouped (row others') where
  codecs_eq := rfl
  streams_eq := rfl
  graphs := .cons ⟨rfl, rfl, fun c => by simp [hmem]⟩ .nil

/-- The rest of the graph listed backwards, and one codec of it twice. -/
theorem same_runs_row : ∃ s s',
    Scene.build (row [⟨2⟩, ⟨3⟩]) { collapseStandardGraphs := true } = .ok s ∧
      Scene.build (row [⟨3⟩, ⟨2⟩, ⟨3⟩]) { collapseStandardGraphs := true } = .ok s' ∧
      ∀ actions, Session.transcript ⟨s', s'.start⟩ actions =
        Session.transcript ⟨s, s.start⟩ actions := by
  have hregrouped : (row [⟨2⟩, ⟨3⟩]).Regrouped (row [⟨3⟩, ⟨2⟩, ⟨3⟩]) :=
    regrouped_row fun c => by grind
  have hok : (Scene.build (row [⟨2⟩, ⟨3⟩]) { collapseStandardGraphs := true }).isOk := by
    decide +kernel
  obtain ⟨s, hs⟩ := Scene.exists_build_of_isOk hok
  obtain ⟨s', hs', -, hrun⟩ := hregrouped.same_runs hs
  exact ⟨s, s', hs, hs', hrun⟩

end Trace

end TraceFold
