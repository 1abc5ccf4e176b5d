/-
  TraceFold.Proofs.Folding.Step

  What an action does.  An action that is not refused does one of the toggles, and which
  one depends on whether its node is collapsed (`Step`).  All that holds of every folding
  that actions lead to is shown toggle by toggle; where it holds only as long as certain
  actions are not done, of the foldings that the other ones lead to (`ReachableBy`).
-/

import TraceFold.CommandLine.Run
import TraceFold.Proofs.Folding.Reachable

namespace TraceFold.Scene

open CommandLine (applyAll)

variable {s : Scene} {f f' : Folding} {a : Action} {c first : CodecId} {g : GraphId}
  {r : Folding × List NodeId} {allowed : Folding → Action → Prop}

/-! ## The first codec of a graph -/

theorem firstCodec_eq_ok : s.firstCodec g = .ok first ↔
    ∃ graph, s.pipeline.graph? g = some graph ∧ graph.first? = some first := by
  unfold firstCodec knownGraph
  cases s.pipeline.graph? g with
  | none => simp
  | some graph => cases hfirst : graph.first? <;> simp [hfirst]

theorem firstCodec_of_standardFirst? (hfirst : s.standardFirst? g = some first) :
    s.firstCodec g = .ok first := by
  unfold standardFirst? at hfirst
  obtain ⟨graph, hgraph, hfirst⟩ := Option.bind_eq_some_iff.1 hfirst
  split at hfirst
  · exact firstCodec_eq_ok.2 ⟨graph, hgraph, hfirst⟩
  · cases hfirst

/-- A graph owns its first codec. -/
theorem Sound.owner?_first (hs : s.Sound) (hfirst : s.firstCodec g = .ok first) :
    s.pipeline.owner? first = some g := by
  obtain ⟨graph, hgraph, hhead⟩ := firstCodec_eq_ok.1 hfirst
  have hmem : first ∈ s.pipeline.members g := by
    rw [Pipeline.members, hgraph]
    exact List.mem_of_head? hhead
  exact (hs.lawful.mem_members first g).1 hmem

theorem Sound.first_known (hs : s.Sound) (hfirst : s.firstCodec g = .ok first) :
    first.index < s.pipeline.codecs.size :=
  codec_lt_of_owner? (hs.owner?_first hfirst)

/-- A graph that owns a codec has a first one. -/
theorem exists_firstCodec (hc : c ∈ s.pipeline.members g) :
    ∃ first, s.firstCodec g = .ok first ∧ (s.pipeline.members g).head? = some first := by
  unfold Pipeline.members at hc ⊢
  cases hgraph : s.pipeline.graph? g with
  | none => simp [hgraph] at hc
  | some graph =>
    simp only [hgraph, Option.map_some, Option.getD_some] at hc ⊢
    obtain ⟨first, rest, hcodecs⟩ := List.exists_cons_of_ne_nil (List.ne_nil_of_mem hc)
    have hhead : graph.first? = some first := by rw [Graph.first?, hcodecs, List.head?_cons]
    exact ⟨first, firstCodec_eq_ok.2 ⟨graph, hgraph, hhead⟩, hhead⟩

/-! ## One action -/

/-- What an action does to a folding, and the nodes to look at. -/
inductive Step (s : Scene) (f : Folding) : Action → Folding × List NodeId → Prop
  | collapseBelow {c : CodecId} (hc : c.index < s.pipeline.codecs.size)
      (hopen : f.codecCollapsed c = false) :
      Step s f (.toggle (.codec c)) (s.collapseBelow f c)
  | expandBelow {c : CodecId} (hc : c.index < s.pipeline.codecs.size)
      (hcollapsed : f.codecCollapsed c) :
      Step s f (.toggle (.codec c)) (s.expandBelow f c)
  | collapseGraph {g : GraphId} (hg : g.index < s.pipeline.graphs.size)
      (hopen : f.graphCollapsed g = false) :
      Step s f (.toggle (.graph g)) (s.collapseGraph f g)
  | expandGraph {g : GraphId} {first : CodecId} (hfirst : s.firstCodec g = .ok first)
      (hcollapsed : f.graphCollapsed g) :
      Step s f (.toggle (.graph g)) (s.expandGraph f g first)
  | expandLevel {c : CodecId} (hc : c.index < s.pipeline.codecs.size) :
      Step s f (.expand c) (s.expandLevel f c)
  | hideGraph {g : GraphId} {first : CodecId} (hfirst : s.firstCodec g = .ok first)
      (hopen : f.graphCollapsed g = false) :
      Step s f (.hide g) (s.hideGraph f g first)
  | restoreGraph {g : GraphId} {first : CodecId} (hfirst : s.firstCodec g = .ok first)
      (hcollapsed : f.graphCollapsed g) :
      Step s f (.hide g) (s.restoreGraph f g first)
  | standard (collapse : Bool) :
      Step s f (.standard collapse)
        ((s.toggleStandard collapse f).1, (s.toggleStandard collapse f).2.map .graph)

theorem knownCodec_eq_ok {c' : CodecId} :
    s.knownCodec c = .ok c' ↔ c' = c ∧ c.index < s.pipeline.codecs.size := by
  unfold knownCodec
  split
  · rename_i hc
    simp [hc, eq_comm]
  · rename_i hc
    simp [hc]

/-- An action that is not refused does one of the toggles. -/
theorem step_of_apply (ha : s.apply f a = .ok r) : s.Step f a r := by
  cases a with
  | toggle node =>
    cases node with
    | codec c =>
      obtain ⟨c', hc', rfl⟩ := exists_of_map_eq_ok ha
      obtain ⟨rfl, hc⟩ := knownCodec_eq_ok.1 hc'
      unfold toggleBelow
      split
      · rename_i hcollapsed
        exact .expandBelow hc hcollapsed
      · rename_i hopen
        exact .collapseBelow hc (Bool.eq_false_iff.2 hopen)
    | graph g =>
      have hg : g.index < s.pipeline.graphs.size := by
        -- a graph that is not in the table is refused
        by_contra hg
        have hnone : s.pipeline.graph? g = none := Array.getElem?_eq_none (Nat.le_of_not_lt hg)
        simp [apply, toggleGraph, knownGraph, hnone, bind, Except.bind] at ha
      rcases toggleGraph_eq_ok ha with ⟨hcollapsed, first, hfirst, rfl⟩ | ⟨hopen, rfl⟩
      · exact .expandGraph hfirst hcollapsed
      · exact .collapseGraph hg hopen
  | expand c =>
    obtain ⟨c', hc', rfl⟩ := exists_of_map_eq_ok ha
    obtain ⟨rfl, hc⟩ := knownCodec_eq_ok.1 hc'
    exact .expandLevel hc
  | hide g =>
    obtain ⟨first, hfirst, rfl⟩ := exists_of_map_eq_ok ha
    unfold toggleHidden
    split
    · rename_i hcollapsed
      exact .restoreGraph hfirst hcollapsed
    · rename_i hopen
      exact .hideGraph hfirst (Bool.eq_false_iff.2 hopen)
  | standard collapse =>
    obtain rfl := Except.ok.inj ha
    exact .standard collapse

/-- Each of the toggles is what its action does. -/
theorem apply_of_step (hstep : s.Step f a r) : s.apply f a = .ok r := by
  cases hstep with
  | collapseBelow hc hopen =>
    rw [apply_toggle_codec hc, toggleBelow, if_neg (Bool.eq_false_iff.1 hopen)]
  | expandBelow hc hcollapsed => rw [apply_toggle_codec hc, toggleBelow, if_pos hcollapsed]
  | @collapseGraph g hg hopen =>
    have hknown : s.knownGraph g = .ok s.pipeline.graphs[g.index] := by
      simp [knownGraph, Pipeline.graph?, hg]
    rw [apply, toggleGraph_of_open hopen, hknown]
    rfl
  | expandGraph hfirst hcollapsed =>
    rw [apply, toggleGraph_of_collapsed hcollapsed, hfirst]
    rfl
  | expandLevel hc => rw [apply, knownCodec_eq_ok.2 ⟨rfl, hc⟩, Except.map]
  | hideGraph hfirst hopen =>
    rw [apply, hfirst, Except.map, toggleHidden, if_neg (Bool.eq_false_iff.1 hopen)]
  | restoreGraph hfirst hcollapsed =>
    rw [apply, hfirst, Except.map, toggleHidden, if_pos hcollapsed]
  | standard collapse => rfl

/-! ## Runs -/

/-- A folding that allowed actions lead to from the start, one after the other. -/
inductive ReachableBy (s : Scene) (allowed : Folding → Action → Prop) : Folding → Prop
  | start : ReachableBy s allowed s.start
  | step {f f' : Folding} {a : Action} {nodes : List NodeId} : ReachableBy s allowed f →
      allowed f a → s.apply f a = .ok (f', nodes) → ReachableBy s allowed f'

theorem ReachableBy.reachable (h : s.ReachableBy allowed f) : s.Reachable f := by
  induction h with
  | start => exact .start
  | step _ _ ha ih => exact .step ih ha

/-- What a list of actions leads to can be reached. -/
theorem Reachable.applyAll {as : List Action} (h : s.Reachable f)
    (hrun : applyAll s f as = .ok f') : s.Reachable f' := by
  induction as generalizing f with
  | nil =>
    obtain rfl := Except.ok.inj hrun
    exact h
  | cons a as ih =>
    unfold CommandLine.applyAll at hrun
    split at hrun
    · cases hrun
    · rename_i ha
      exact ih (.step h ha) hrun

/-- What a run has been seen to lead to can be reached. -/
theorem exists_of_run {t : Trace} {settings : Settings} {as : List Action}
    {q : Scene → Folding → Bool} (hbuild : Scene.build t settings = .ok s)
    (hrun : (Scene.build t settings).toOption.any (fun s =>
      (applyAll s s.start as).toOption.any (q s)) = true) :
    ∃ f, applyAll s s.start as = .ok f ∧ s.Reachable f ∧ q s f := by
  obtain ⟨s', hs', hrun⟩ := exists_of_any_toOption hrun
  obtain rfl := Except.ok.inj (hbuild.symm.trans hs')
  obtain ⟨f, hf, hq⟩ := exists_of_any_toOption hrun
  exact ⟨f, hf, Reachable.start.applyAll hf, hq⟩

end TraceFold.Scene
