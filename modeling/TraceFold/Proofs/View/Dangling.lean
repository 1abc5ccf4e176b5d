/-
  TraceFold.Proofs.View.Dangling

  Whether every codec of a view comes with the graph that it names as its owner.  A graph
  that is collapsed may be hidden while a codec of it is on screen: collapsing a codec
  hides the collapsed graphs of everything below it.  While it is not collapsed, a graph is
  not missing as long as no action shows codecs of it without it (`ownersShown_of_build`).
-/

import TraceFold.Proofs.Folding.Anchored
import TraceFold.Proofs.View.Coherent

namespace TraceFold

/-- A codec of the view names a graph as its owner that the view does not have. -/
def View.Dangling (v : View) (owner : String) : Prop :=
  (∃ c, .codec c ∈ v.nodes ∧ c.owner = some owner) ∧ ¬∃ g, .graph g ∈ v.nodes ∧ g.id = owner

namespace Scene

open CommandLine (applyAll)

variable {t : Trace} {settings : Settings} {s : Scene} {f : Folding} {g : GraphId} {owner : String}

/-! ## What names an owner, and what it names -/

section Shown

variable (hbuild : Scene.build t settings = .ok s)
include hbuild

/-- The owners that are named are those of the codecs on screen. -/
theorem exists_codec_mem_view_iff :
    (∃ c, .codec c ∈ (s.viewOf f (s.shownPicture f)).nodes ∧ c.owner = some owner) ↔
      ∃ x g, f.codecVisible x ∧ s.pipeline.owner? x = some g ∧ g.text = owner := by
  have hs := sound_of_build hbuild
  refine ⟨?_, ?_⟩
  · rintro ⟨c, hc, howner⟩
    -- a codec of the view describes a node on screen, which must be a codec too
    obtain ⟨n, hn, hview⟩ := List.mem_filterMap.1 hc
    cases n with
    | codec x =>
      obtain ⟨codec, hcodec, heq⟩ := Option.map_eq_some_iff.1 hview
      obtain rfl := NodeView.codec.inj heq
      obtain ⟨g, hg, hname⟩ := Option.map_eq_some_iff.1 howner
      exact ⟨x, g, (hs.mem_visibleNodes_iff.1 hn).1, Option.bind_eq_some_iff.2 ⟨codec, hcodec, hg⟩,
        hname⟩
    | graph g =>
      obtain ⟨_, _, heq⟩ := Option.map_eq_some_iff.1 hview
      cases heq
  · rintro ⟨x, g, hx, hown, rfl⟩
    obtain ⟨codec, hcodec, hg⟩ := Option.bind_eq_some_iff.1 hown
    have hn : .codec x ∈ s.visibleNodes f :=
      hs.mem_visibleNodes_iff.2 ⟨hx, x, codec_lt_of_owner? hown, rfl⟩
    refine ⟨s.codecView f codec, List.mem_filterMap.2 ⟨.codec x, hn, ?_⟩, ?_⟩
    · exact Option.map_eq_some_iff.2 ⟨codec, hcodec, rfl⟩
    · exact Option.map_eq_some_iff.2 ⟨g, hg, rfl⟩

/-- The graphs of the view are those on screen that own a codec. -/
theorem exists_graph_mem_view_iff :
    (∃ v, .graph v ∈ (s.viewOf f (s.shownPicture f)).nodes ∧ v.id = g.text) ↔
      f.graphVisible g ∧ ∃ x, s.pipeline.owner? x = some g := by
  have hs := sound_of_build hbuild
  refine ⟨?_, ?_⟩
  · rintro ⟨v, hv, hid⟩
    obtain ⟨n, hn, hview⟩ := List.mem_filterMap.1 hv
    cases n with
    | codec x =>
      obtain ⟨_, _, heq⟩ := Option.map_eq_some_iff.1 hview
      cases heq
    | graph g' =>
      -- the text tells which graph it is
      have hname : v.id = g'.text := (nodeView?_spec hbuild hview).1
      obtain rfl : g' = g := GraphId.text_inj.1 (hname.symm.trans hid)
      obtain ⟨hvisible, x, -, hown⟩ := hs.mem_visibleNodes_iff.1 hn
      exact ⟨hvisible, x, hown⟩
  · rintro ⟨hvisible, x, hown⟩
    have hn : .graph g ∈ s.visibleNodes f :=
      hs.mem_visibleNodes_iff.2 ⟨hvisible, x, codec_lt_of_owner? hown, hown⟩
    obtain ⟨graph, hgraph, -⟩ := hs.graph_known hown
    have hview : s.nodeView? f (.graph g) = some (.graph (s.graphView f graph)) :=
      Option.map_eq_some_iff.2 ⟨graph, hgraph, rfl⟩
    exact ⟨_, List.mem_filterMap.2 ⟨.graph g, hn, hview⟩, (nodeView?_spec hbuild hview).1⟩

/-- An owner is missing from the view exactly if it is hidden and a codec of it is not. -/
theorem dangling_iff : (s.viewOf f (s.shownPicture f)).Dangling owner ↔
    ∃ x g, f.codecVisible x ∧ s.pipeline.owner? x = some g ∧ f.graphVisible g = false ∧
      g.text = owner := by
  unfold View.Dangling
  rw [exists_codec_mem_view_iff hbuild]
  refine ⟨?_, ?_⟩
  · rintro ⟨⟨x, g, hx, hown, rfl⟩, hmissing⟩
    rw [exists_graph_mem_view_iff hbuild] at hmissing
    exact ⟨x, g, hx, hown, Bool.eq_false_iff.2 fun hg => hmissing ⟨hg, x, hown⟩, rfl⟩
  · rintro ⟨x, g, hx, hown, hhidden, rfl⟩
    refine ⟨⟨x, g, hx, hown, rfl⟩, ?_⟩
    rw [exists_graph_mem_view_iff hbuild]
    rintro ⟨hg, -⟩
    rw [hhidden] at hg
    cases hg

end Shown

/-! ## Where owners are shown -/

/-- When the codecs that a graph owns come with the graph. -/
structure OwnersShown (s : Scene) (g : GraphId) : Prop where
  start : s.Anchored s.start g
  step_iff : ∀ f a f' nodes, s.Reachable f → s.Anchored f g → s.apply f a = .ok (f', nodes) →
    (s.Anchored f' g ↔ ¬s.Detaches f g a)
  /-- Runs of actions on nodes that are on screen are allowed. -/
  onScreen : ∀ f, s.ReachableBy OnScreen f → s.ReachableBy (fun f a => ¬s.Detaches f g a) f
  /-- Where allowed actions lead to, the graph is missing from the view only while it is
      collapsed. -/
  view : ∀ f, s.ReachableBy (fun f a => ¬s.Detaches f g a) f →
    ∃ v, s.view f = .ok v ∧ (v.Dangling g.text → f.graphCollapsed g)

/-- In every scene that is built, the codecs of a graph come with it unless it is collapsed,
    as long as no action shows codecs of it while it stays hidden, and not any longer. -/
theorem ownersShown_of_build (hbuild : Scene.build t settings = .ok s) (g : GraphId) :
    s.OwnersShown g := by
  have hs := sound_of_build hbuild
  refine ⟨anchored_start hs, fun f a f' nodes hf hg ha => hg.apply_iff hs (hf.regular hs) ha,
    fun f => .of_onScreen hs, fun f hf => ⟨_, hs.view_eq f, fun hdangling => ?_⟩⟩
  obtain ⟨x, g', hx, hown, hhidden, hname⟩ := (dangling_iff hbuild).1 hdangling
  obtain rfl : g' = g := GraphId.text_inj.1 hname
  -- if it were not collapsed, it would be on screen with its codec
  by_contra hopen
  rw [hf.anchored hs x hown hx (Bool.eq_false_iff.2 hopen)] at hhidden
  cases hhidden

/-- Collapsing the root takes the second of the pairs off the screen with its codecs, and
    detaches none. -/
theorem ownersShown_pairs : ∃ s f, Scene.build pairs {} = .ok s ∧
    s.ReachableBy (fun f a => ¬s.Detaches f ⟨1⟩ a) f ∧ f.graphVisible ⟨1⟩ = false ∧
      s.OwnersShown ⟨1⟩ := by
  have hrun : (Scene.build pairs {}).toOption.any (fun s =>
      (s.apply s.start (.toggle (.codec ⟨0⟩))).toOption.any (!·.1.graphVisible ⟨1⟩)) = true := by
    decide +kernel
  obtain ⟨s, hs, hrun⟩ := exists_of_any_toOption hrun
  obtain ⟨r, ha, hhidden⟩ := exists_of_any_toOption hrun
  have hallowed : ¬s.Detaches s.start ⟨1⟩ (.toggle (.codec ⟨0⟩)) := not_false
  have hreach : s.ReachableBy (fun f a => ¬s.Detaches f ⟨1⟩ a) r.1 := .step .start hallowed ha
  exact ⟨s, r.1, hs, hreach, by simpa using hhidden, ownersShown_of_build hs ⟨1⟩⟩

/-- Three runs that leave a codec of the pairs without its graph: the graph of the root is
    collapsed and then hidden with what is below the root; a graph is collapsed, hidden and
    expanded again; one level is shown inside a graph that is hidden. -/
theorem exists_dangling : ∃ s, Scene.build pairs {} = .ok s ∧
    (∃ f v, applyAll s s.start [.toggle (.graph ⟨0⟩), .toggle (.codec ⟨0⟩)] = .ok f ∧
      s.Reachable f ∧ s.view f = .ok v ∧ v.Dangling "G0") ∧
    (∃ f v, applyAll s s.start
        [.toggle (.graph ⟨1⟩), .toggle (.codec ⟨0⟩), .toggle (.graph ⟨1⟩)] = .ok f ∧
      s.Reachable f ∧ s.view f = .ok v ∧ v.Dangling "G1") ∧
    ∃ f v, applyAll s s.start [.toggle (.codec ⟨0⟩), .expand ⟨2⟩] = .ok f ∧
      s.Reachable f ∧ s.view f = .ok v ∧ v.Dangling "G1" := by
  obtain ⟨s, hs⟩ := exists_build_pairs
  have hleft : ∀ (as : List Action) (x : CodecId) (g : GraphId) (owner : String), g.text = owner →
      (Scene.build pairs {}).toOption.any (fun s => (applyAll s s.start as).toOption.any fun f =>
        f.codecVisible x && s.pipeline.owner? x == some g && !f.graphVisible g) = true →
      ∃ f v, applyAll s s.start as = .ok f ∧ s.Reachable f ∧ s.view f = .ok v ∧
        v.Dangling owner := by
    intro as x g owner hname hrun
    obtain ⟨f, hf, hreach, hq⟩ := exists_of_run (q := fun s f =>
      f.codecVisible x && s.pipeline.owner? x == some g && !f.graphVisible g) hs hrun
    simp only [Bool.and_eq_true, Bool.not_eq_true', beq_iff_eq] at hq
    obtain ⟨⟨hx, hown⟩, hhidden⟩ := hq
    exact ⟨f, _, hf, hreach, (sound_of_build hs).view_eq f,
      (dangling_iff hs).2 ⟨x, g, hx, hown, hhidden, hname⟩⟩
  refine ⟨s, hs, hleft _ ⟨0⟩ ⟨0⟩ _ ?_ ?_, hleft _ ⟨3⟩ ⟨1⟩ _ ?_ ?_, hleft _ ⟨3⟩ ⟨1⟩ _ ?_ ?_⟩
  all_goals decide +kernel

end Scene

end TraceFold
