/-
  TraceFold.Proofs.Folding.Focus

  The nodes to look at after an action.  There is one at least, none comes twice, and if
  the action was done to a node on screen, they are all on screen.  Hiding a graph is the
  one exception, since what it takes off the screen below the graph's first codec can be
  all that the graph had there: then the graph, which is to stand in for it, goes with it
  (`Vanishes`).  That needs a first codec that was hidden before.
-/

import TraceFold.Proofs.Folding.GraphEffect
import TraceFold.Proofs.Folding.Width
import TraceFold.Proofs.Lists

namespace TraceFold

/-- The node that an action is done to, if it is done to one. -/
def Action.target? : Action → Option NodeId
  | .toggle n => some n
  | .expand c => some (.codec c)
  | .hide g => some (.graph g)
  | .standard _ => none

namespace Scene

open Folding
open CommandLine (applyAll)
open Dag (Child)

variable {s : Scene} {f f' : Folding} {c x first : CodecId} {g : GraphId} {n : NodeId}
  {nodes : List NodeId}

/-! ## The nodes that are given -/

theorem nodup_codecs {cs : List CodecId} (hcs : cs.Nodup) : (cs.map NodeId.codec).Nodup :=
  hcs.map fun _ _ => NodeId.codec.inj

/-- No descent meets the codec that it starts from. -/
theorem not_mem_descendants (hs : s.Sound) {d : Descent} : c ∉ s.descendants f d c := fun hmem =>
  hs.ne_of_below (mem_descendants.1 hmem).below_start rfl

/-- A collapsed graph stands in for the codecs that it owns. -/
theorem standIn_eq_graph {u : CodecId} : s.standIn f u = .graph g ↔
    s.pipeline.owner? u = some g ∧ f.graphCollapsed g := by
  unfold standIn
  cases hown : s.pipeline.owner? u with
  | none => simp
  | some g' =>
    cases hcollapsed : f.graphCollapsed g' with
    | true =>
      refine ⟨?_, ?_⟩
      · intro hnode
        obtain rfl : g' = g := by simpa [hcollapsed] using hnode
        exact ⟨rfl, hcollapsed⟩
      · rintro ⟨hg, -⟩
        obtain rfl := Option.some.inj hg
        simp [hcollapsed]
    | false =>
      refine ⟨fun hnode => by simp [hcollapsed] at hnode, ?_⟩
      rintro ⟨hg, hg'⟩
      obtain rfl := Option.some.inj hg
      rw [hcollapsed] at hg'
      cases hg'

/-- A codec stands in for itself if no collapsed graph owns it. -/
theorem standIn_eq_codec {u : CodecId} : s.standIn f u = .codec x ↔
    u = x ∧ ∀ g, s.pipeline.owner? x = some g → f.graphCollapsed g = false := by
  rw [← codec?_standIn]
  cases s.standIn f u <;> simp [NodeId.codec?]

theorem standIn_congr (h : ∀ g, f.graphCollapsed g = f'.graphCollapsed g) :
    s.standIn f = s.standIn f' := by
  funext u
  simp only [standIn, h]

/-- Whether a codec itself is collapsed decides neither what is found below it nor what
    stands in for that. -/
theorem expandBelow_nodes (hs : s.Sound) : (s.expandBelow f c).2 =
    ((s.descendants f .stopAtCollapsed c).map (s.standIn f)).eraseDups ++ [.codec c] := by
  have hagree : s.AgreeBelow c (f.moveCodecs .expand [c]) f := hs.agreeBelow_moveCodecs
  simp only [expandBelow, moveCodec_eq]
  rw [descendants_congr hagree.codecs, standIn_congr hagree.graphs]

/-- Expanding below a codec gives the codec, what it bares, and the collapsed graphs that
    it comes to. -/
theorem mem_expandBelow_nodes (hs : s.Sound) : n ∈ (s.expandBelow f c).2 ↔ n = .codec c ∨
    (∃ x, n = .codec x ∧ s.Bared f c x) ∨
      ∃ g, n = .graph g ∧ f.graphCollapsed g ∧ s.OwnsMet f c g := by
  simp only [expandBelow_nodes hs, List.mem_append, List.mem_eraseDups, List.mem_map,
    mem_descendants, List.mem_singleton]
  rw [or_comm]
  refine or_congr_right ⟨?_, ?_⟩
  · rintro ⟨u, hu, rfl⟩
    cases hnode : s.standIn f u with
    | codec x =>
      obtain ⟨rfl, hopen⟩ := standIn_eq_codec.1 hnode
      exact Or.inl ⟨u, rfl, hu, hopen⟩
    | graph g =>
      obtain ⟨hown, hcollapsed⟩ := standIn_eq_graph.1 hnode
      exact Or.inr ⟨g, rfl, hcollapsed, u, hu, hown⟩
  · rintro (⟨x, rfl, hx, hopen⟩ | ⟨g, rfl, hcollapsed, u, hu, hown⟩)
    · exact ⟨x, hx, standIn_eq_codec.2 ⟨rfl, hopen⟩⟩
    · exact ⟨u, hu, standIn_eq_graph.2 ⟨hown, hcollapsed⟩⟩

/-- No node is named twice after expanding below a codec. -/
theorem nodup_expandBelow_nodes (hs : s.Sound) : (s.expandBelow f c).2.Nodup := by
  rw [expandBelow_nodes hs]
  refine nodup_append_singleton (nodup_eraseDups _) fun hmem => ?_
  -- the codec is not met, so it does not stand in for anything that is
  obtain ⟨u, hu, hnode⟩ := List.mem_map.1 (List.mem_eraseDups.1 hmem)
  obtain ⟨rfl, -⟩ := standIn_eq_codec.1 hnode
  exact not_mem_descendants hs hu

/-- What showing one level uncovers for a child: the child, or its graph if it is foreign. -/
def Uncovers (s : Scene) (c x : CodecId) : NodeId → Prop
  | .codec y => y = x ∧ ¬s.Foreign c x
  | .graph g => s.Foreign c x ∧ s.pipeline.owner? x = some g

/-- The node that is uncovered for a child. -/
def levelNode (s : Scene) (c x : CodecId) : NodeId :=
  match s.pipeline.owner? x with
  | some g => if s.isForeign c x then .graph g else .codec x
  | none => .codec x

theorem expandLevel_nodes : (s.expandLevel f c).2
    = .codec c :: ((s.dag.childrenOf c).map (s.levelNode c)).eraseDups := rfl

/-- A child is named itself, or by its graph if another one owns it. -/
theorem levelNode_eq_iff : s.levelNode c x = n ↔ s.Uncovers c x n := by
  unfold levelNode
  cases hown : s.pipeline.owner? x with
  | none =>
    have hnot : ¬s.Foreign c x := fun ⟨g, hg, _⟩ => by simp [hown] at hg
    cases n <;> simp [Uncovers, hnot, eq_comm]
  | some g =>
    by_cases h : s.Foreign c x
    · simp only [if_pos (isForeign_iff.2 h)]
      cases n <;> simp [Uncovers, h, hown]
    · simp only [if_neg (mt isForeign_iff.1 h)]
      cases n <;> simp [Uncovers, h, eq_comm]

/-- Showing one level gives the codec, the children that are shown, and the graphs of the
    other ones. -/
theorem mem_expandLevel_nodes : n ∈ (s.expandLevel f c).2 ↔ n = .codec c ∨
    (∃ x, n = .codec x ∧ s.Near c x) ∨ ∃ g, n = .graph g ∧ s.Borders c g := by
  simp only [expandLevel_nodes, List.mem_cons, List.mem_eraseDups, List.mem_map, levelNode_eq_iff,
    near_iff, borders_iff]
  refine or_congr_right ⟨?_, ?_⟩
  · rintro ⟨x, hx, hn⟩
    cases n with
    | codec y =>
      obtain ⟨rfl, hnear⟩ := hn
      exact Or.inl ⟨y, rfl, hx, hnear⟩
    | graph g => exact Or.inr ⟨g, rfl, x, hx, hn⟩
  · rintro (⟨x, rfl, hx, hnear⟩ | ⟨g, rfl, x, hx, hn⟩)
    · exact ⟨x, hx, rfl, hnear⟩
    · exact ⟨x, hx, hn⟩

/-- No node is named twice after showing a level. -/
theorem nodup_expandLevel_nodes (hs : s.Sound) : (s.expandLevel f c).2.Nodup := by
  rw [expandLevel_nodes]
  refine List.nodup_cons.2 ⟨fun hmem => ?_, nodup_eraseDups _⟩
  obtain ⟨x, hx, hnode⟩ := List.mem_map.1 (List.mem_eraseDups.1 hmem)
  -- only the codec itself could be named again, and it does not feed itself
  obtain ⟨rfl, -⟩ : c = x ∧ ¬s.Foreign c x := levelNode_eq_iff.1 hnode
  exact hs.ne_of_below (.single hx) rfl

theorem restoreGraph_nodes_of_collapsed (hs : s.Sound) (hcollapsed : f.codecCollapsed first) :
    (s.restoreGraph f g first).2 = (s.expandBelow (unveil f g) first).2 ++ [.graph g] := by
  have hfirst : (unveil f g).codecCollapsed first := by simpa using hcollapsed
  have hmem : (s.expandBelow (unveil f g) first).2.contains (.codec first) := by
    rw [List.contains_iff_mem]
    exact (mem_expandBelow_nodes hs).2 (Or.inl rfl)
  simp only [restoreGraph, unveil] at hfirst hmem ⊢
  rw [if_pos hfirst, if_pos hmem]

/-- Restoring without expanding names what is met in the graph, the first codec, and the graph. -/
theorem restoreGraph_nodes_of_open (hs : s.Sound) (hopen : f.codecCollapsed first = false) :
    (s.restoreGraph f g first).2
      = ((s.descendants (unveil f g) (.within g) first ++ [first]).map NodeId.codec)
        ++ [.graph g] := by
  have hfirst : ¬(unveil f g).codecCollapsed first := by simp [hopen]
  have hmem : ¬((s.descendants (unveil f g) (.within g) first).map NodeId.codec).contains
      (.codec first) := by
    rw [List.contains_iff_mem, List.mem_map]
    rintro ⟨x, hx, ⟨⟩⟩
    exact not_mem_descendants hs hx
  simp only [restoreGraph, unveil] at hfirst hmem ⊢
  rw [if_neg hfirst, if_neg hmem, List.map_append, List.map_singleton]

/-! ## Nodes to look at that are on screen -/

/-- There is a node to look at, none comes twice, and all are on screen. -/
structure InSight (f : Folding) (nodes : List NodeId) : Prop where
  ne_nil : nodes ≠ []
  nodup : nodes.Nodup
  visible : ∀ n ∈ nodes, f.nodeVisible n

theorem inSight_singleton (hn : f.nodeVisible n) : InSight f [n] where
  ne_nil := List.cons_ne_nil n []
  nodup := List.nodup_singleton n
  visible m hm := by
    obtain rfl := List.mem_singleton.1 hm
    exact hn

/-- One more node in sight, which has not been named yet, is added. -/
theorem InSight.snoc (h : InSight f nodes) (hn : f.nodeVisible n) (hnot : n ∉ nodes) :
    InSight f (nodes ++ [n]) where
  ne_nil := List.append_ne_nil_of_right_ne_nil nodes (List.cons_ne_nil n [])
  nodup := nodup_append_singleton h.nodup hnot
  visible m hm := by
    rcases List.mem_append.1 hm with hm | hm
    · exact h.visible m hm
    · obtain rfl := List.mem_singleton.1 hm
      exact hn

/-- Expanding shows every node that it names, except that it need not show the codec itself. -/
theorem visible_expandBelow_nodes (hs : s.Sound) (hf : s.Fits f)
    (hn : n ∈ (s.expandBelow f c).2) (hne : n ≠ .codec c) :
    (s.expandBelow f c).1.nodeVisible n := by
  rcases (mem_expandBelow_nodes hs).1 hn with heq | ⟨x, rfl, hx⟩ | ⟨g, rfl, -, hg⟩
  · exact absurd heq hne
  · exact (codecVisible_expandBelow hs hf).2 (Or.inr hx)
  · exact (graphVisible_expandBelow hs hf).2 (Or.inr hg)

/-- All that is named after expanding below a codec is on screen if the codec is. -/
theorem inSight_expandBelow (hs : s.Sound) (hf : s.Fits f) (hc : f.codecVisible c) :
    InSight (s.expandBelow f c).1 (s.expandBelow f c).2 where
  ne_nil := List.ne_nil_of_mem ((mem_expandBelow_nodes hs).2 (Or.inl rfl))
  nodup := nodup_expandBelow_nodes hs
  visible n hn := by
    by_cases heq : n = .codec c
    · subst heq
      exact (codecVisible_expandBelow hs hf).2 (Or.inl hc)
    · exact visible_expandBelow_nodes hs hf hn heq

theorem inSight_collapseBelow (hs : s.Sound) (hc : f.codecVisible c) :
    InSight (s.collapseBelow f c).1 (s.collapseBelow f c).2 :=
  inSight_singleton ((codecVisible_collapseBelow hs).2 ⟨hc, fun h => hs.ne_of_below h rfl⟩)

/-- All that is named after showing a level is on screen if the codec is. -/
theorem inSight_expandLevel (hs : s.Sound) (hf : s.Fits f) (hc : f.codecVisible c) :
    InSight (s.expandLevel f c).1 (s.expandLevel f c).2 where
  ne_nil := List.cons_ne_nil _ _
  nodup := nodup_expandLevel_nodes hs
  visible n hn := by
    rcases mem_expandLevel_nodes.1 hn with rfl | ⟨x, rfl, hx⟩ | ⟨g, rfl, hg⟩
    · exact (codecVisible_expandLevel hs hf).2 (Or.inl hc)
    · exact (codecVisible_expandLevel hs hf).2 (Or.inr hx)
    · exact (graphVisible_expandLevel hs hf).2 (Or.inr hg)

theorem inSight_collapseGraph (hg : f.graphVisible g) :
    InSight (s.collapseGraph f g).1 (s.collapseGraph f g).2 :=
  inSight_singleton (graphVisible_collapseGraph.trans hg)

section First

variable (hs : s.Sound) (hf : s.Fits f) (hfirst : s.firstCodec g = .ok first)
include hs hf hfirst

/-- Expanding a graph shows all that it names, whatever has been on screen. -/
theorem inSight_expandGraph : InSight (s.expandGraph f g first).1 (s.expandGraph f g first).2 where
  ne_nil := List.cons_ne_nil _ _
  nodup := by
    simp only [expandGraph]
    refine nodup_codecs (List.nodup_cons.2 ?_)
    split
    · exact ⟨List.not_mem_nil, List.nodup_nil⟩
    · exact ⟨not_mem_descendants hs, nodup_descendants⟩
  visible n hn := by
    obtain ⟨x, hx, rfl⟩ := List.mem_map.1 hn
    exact (codecVisible_expandGraph hs hf hfirst).2 (Or.inr (mem_opened.1 hx))

theorem codec_first_visible : (s.restoreGraph f g first).1.nodeVisible (.codec first) :=
  (codecVisible_restoreGraph hs hf hfirst).2 (Or.inr (Or.inl rfl))

/-- What is below a collapsed first codec is in sight once the graph is restored. -/
theorem inSight_restoreGraph_of_collapsed (hcollapsed : f.codecCollapsed first) :
    InSight (s.restoreGraph f g first).1 (s.expandBelow (unveil f g) first).2 where
  ne_nil := List.ne_nil_of_mem ((mem_expandBelow_nodes hs).2 (Or.inl rfl))
  nodup := nodup_expandBelow_nodes hs
  visible n hn := by
    by_cases heq : n = .codec first
    · rw [heq]
      exact codec_first_visible hs hf hfirst
    · -- showing the first codec in the end takes nothing off the screen
      rw [restoreGraph_of_collapsed hcollapsed]
      have hvisible := visible_expandBelow_nodes hs (hf.unveil g) hn heq
      exact (noWider_moveCodec (.inl rfl)).visible n hvisible

/-- So is what a descent inside the graph meets. -/
theorem inSight_restoreGraph_of_open (hopen : f.codecCollapsed first = false) :
    InSight (s.restoreGraph f g first).1
      ((s.descendants (unveil f g) (.within g) first ++ [first]).map .codec) where
  ne_nil := by simp
  nodup := nodup_codecs (nodup_append_singleton nodup_descendants (not_mem_descendants hs))
  visible n hn := by
    obtain ⟨x, hx, rfl⟩ := List.mem_map.1 hn
    rcases List.mem_append.1 hx with hx | hx
    · have hmet := met_unveil.1 (mem_descendants.1 hx)
      refine (codecVisible_restoreGraph hs hf hfirst).2 (Or.inr (Or.inr ?_))
      rwa [if_neg (Bool.eq_false_iff.1 hopen)]
    · obtain rfl := List.mem_singleton.1 hx
      exact codec_first_visible hs hf hfirst

/-- All that is named after restoring a graph is on screen. -/
theorem inSight_restoreGraph :
    InSight (s.restoreGraph f g first).1 (s.restoreGraph f g first).2 := by
  have hgraph : (s.restoreGraph f g first).1.nodeVisible (.graph g) :=
    (graphVisible_restoreGraph hs hf hfirst).2 (Or.inl (Or.inr rfl))
  cases hcollapsed : f.codecCollapsed first with
  | true =>
    rw [restoreGraph_nodes_of_collapsed hs hcollapsed]
    refine (inSight_restoreGraph_of_collapsed hs hf hfirst hcollapsed).snoc hgraph fun hmem => ?_
    -- the graph has been expanded, so it stands in for nothing that is met
    rcases (mem_expandBelow_nodes hs).1 hmem with heq | ⟨x, heq, -⟩ | ⟨g', heq, hg', -⟩
    · cases heq
    · cases heq
    · cases heq
      exact (graphCollapsed_unveil.1 hg').2 rfl
  | false =>
    rw [restoreGraph_nodes_of_open hs hcollapsed]
    refine (inSight_restoreGraph_of_open hs hf hfirst hcollapsed).snoc hgraph fun hmem => ?_
    obtain ⟨x, -, heq⟩ := List.mem_map.1 hmem
    cases heq

end First

/-! ## A graph that hides itself -/

/-- Hiding a graph takes the graph off the screen as well: neither it nor its first codec
    is collapsed, it owns a codec below the first one, and all that it has on screen is
    below the first one. -/
def Vanishes (s : Scene) (f : Folding) (g : GraphId) : Prop :=
  f.graphCollapsed g = false ∧ ∃ first, s.firstCodec g = .ok first ∧
    f.codecCollapsed first = false ∧ s.OwnsBelow first g ∧
      ∀ x, s.pipeline.owner? x = some g → f.codecVisible x → s.Below first x

/-- A graph that is hidden stays on screen itself, as a node, unless it vanishes. -/
theorem graphVisible_hideGraph_self (hs : s.Sound) (hfirst : s.firstCodec g = .ok first)
    (hopen : f.graphCollapsed g = false) (hg : f.graphVisible g) :
    (s.hideGraph f g first).1.graphVisible g ↔ ¬s.Vanishes f g := by
  rw [graphVisible_hideGraph hs, and_iff_right hg]
  refine ⟨?_, fun hnot hfirstopen hbelow => ⟨hopen, ?_⟩⟩
  · rintro hkept ⟨-, first', hfirst', hfirstopen, hbelow, hall⟩
    obtain rfl := Except.ok.inj (hfirst.symm.trans hfirst')
    obtain ⟨-, x, hown, hx, hnot⟩ := hkept hfirstopen hbelow
    exact hnot (hall x hown hx)
  · by_contra hnone
    push Not at hnone
    exact hnot ⟨hopen, first, hfirst, hfirstopen, hbelow, hnone⟩

/-- The nodes to look at after an action that was done to a node on screen. -/
structure Focuses (s : Scene) (f : Folding) (a : Action) (f' : Folding) (nodes : List NodeId) :
    Prop where
  ne_nil : nodes ≠ []
  nodup : nodes.Nodup
  /-- They are on screen, unless the action hides a graph that goes with what it hides. -/
  visible_iff : (∀ n ∈ nodes, f'.nodeVisible n) ↔ ∀ g, a = .hide g → ¬s.Vanishes f g

/-- An action that hides nothing has all that it gives on screen. -/
theorem InSight.focuses {a : Action} (h : InSight f' nodes)
    (ha : ∀ g, a = .hide g → ¬s.Vanishes f g) : s.Focuses f a f' nodes where
  ne_nil := h.ne_nil
  nodup := h.nodup
  visible_iff := iff_of_true h.visible ha

/-- After an action on a node on screen, of every folding that can be reached, there is
    something to look at, nothing comes twice, and all of it is on screen, except after a
    graph was hidden that vanishes. -/
theorem focuses_of_apply {t : Trace} {settings : Settings} {a : Action}
    (hbuild : Scene.build t settings = .ok s) (hreach : s.Reachable f)
    (htarget : a.target? = some n) (hn : f.nodeVisible n)
    (ha : s.apply f a = .ok (f', nodes)) : s.Focuses f a f' nodes := by
  have hs := sound_of_build hbuild
  have hf := (hreach.regular hs).toFits
  generalize hr : (f', nodes) = r at ha
  cases step_of_apply ha with
  | collapseBelow _ _ =>
    obtain ⟨rfl, rfl⟩ := Prod.mk.inj hr
    obtain rfl := Option.some.inj htarget
    exact (inSight_collapseBelow hs hn).focuses nofun
  | expandBelow _ _ =>
    obtain ⟨rfl, rfl⟩ := Prod.mk.inj hr
    obtain rfl := Option.some.inj htarget
    exact (inSight_expandBelow hs hf hn).focuses nofun
  | collapseGraph _ _ =>
    obtain ⟨rfl, rfl⟩ := Prod.mk.inj hr
    obtain rfl := Option.some.inj htarget
    exact (inSight_collapseGraph hn).focuses nofun
  | expandGraph hfirst _ =>
    obtain ⟨rfl, rfl⟩ := Prod.mk.inj hr
    exact (inSight_expandGraph hs hf hfirst).focuses nofun
  | expandLevel _ =>
    obtain ⟨rfl, rfl⟩ := Prod.mk.inj hr
    obtain rfl := Option.some.inj htarget
    exact (inSight_expandLevel hs hf hn).focuses nofun
  | restoreGraph hfirst hcollapsed =>
    obtain ⟨rfl, rfl⟩ := Prod.mk.inj hr
    -- a graph that is restored was collapsed, so it does not vanish
    refine (inSight_restoreGraph hs hf hfirst).focuses fun g hg hvanishes => ?_
    cases hg
    rw [hvanishes.1] at hcollapsed
    cases hcollapsed
  | @hideGraph g first hfirst hopen =>
    obtain ⟨rfl, rfl⟩ := Prod.mk.inj hr
    obtain rfl := Option.some.inj htarget
    -- the only thing to look at is the graph itself, which may be off screen
    have hiff := graphVisible_hideGraph_self hs hfirst hopen hn
    refine ⟨List.cons_ne_nil _ _, List.nodup_singleton _, ?_⟩
    rw [List.forall_mem_singleton]
    refine hiff.trans ⟨?_, fun hall => hall g rfl⟩
    rintro hnot _ ⟨⟩
    exact hnot
  | standard _ => cases htarget

/-- Collapses the long way through the shortcut's pipeline, and then the short way, which is
    expanded again: of the graph, only the codec that both ways lead to is on screen. -/
def shortWay : List Action :=
  [.toggle (.codec ⟨1⟩), .toggle (.codec ⟨2⟩), .toggle (.codec ⟨2⟩)]

/-- Hiding the graph of the shortcut leaves it in sight, to be looked at. -/
theorem focuses_shortcut : ∃ s f f' nodes, Scene.build shortcut {} = .ok s ∧ s.Reachable f ∧
    f.graphVisible ⟨0⟩ ∧ s.apply f (.hide ⟨0⟩) = .ok (f', nodes) ∧
    s.Focuses f (.hide ⟨0⟩) f' nodes := by
  have hrun : (Scene.build shortcut {}).toOption.any (fun s =>
      (applyAll s s.start shortWay).toOption.any fun f =>
        f.graphVisible ⟨0⟩ && (s.apply f (.hide ⟨0⟩)).toOption.any fun _ => true) = true := by
    decide +kernel
  obtain ⟨s, hs⟩ := exists_build_shortcut
  obtain ⟨f, -, hreach, hq⟩ := exists_of_run hs hrun
  obtain ⟨hvisible, hok⟩ := Bool.and_eq_true_iff.1 hq
  obtain ⟨r, ha, -⟩ := exists_of_any_toOption hok
  exact ⟨s, f, r.1, r.2, hs, hreach, hvisible, ha, focuses_of_apply hs hreach rfl hvisible ha⟩

/-- Hiding the graph then gives the graph to look at, which is off the screen. -/
theorem exists_focus_out_of_sight : ∃ s f, Scene.build shortcut {} = .ok s ∧
    applyAll s s.start shortWay = .ok f ∧ s.Reachable f ∧ f.graphVisible ⟨0⟩ ∧
    ∃ f' nodes, s.apply f (.hide ⟨0⟩) = .ok (f', nodes) ∧
      .graph ⟨0⟩ ∈ nodes ∧ f'.nodeVisible (.graph ⟨0⟩) = false := by
  have hrun : (Scene.build shortcut {}).toOption.any (fun s =>
      (applyAll s s.start shortWay).toOption.any fun f =>
        f.graphVisible ⟨0⟩ && (s.apply f (.hide ⟨0⟩)).toOption.any fun r =>
          r.2.contains (.graph ⟨0⟩) && !r.1.nodeVisible (.graph ⟨0⟩)) = true := by
    decide +kernel
  obtain ⟨s, hs⟩ := exists_build_shortcut
  obtain ⟨f, hf, hreach, hq⟩ := exists_of_run hs hrun
  obtain ⟨hvisible, hafter⟩ := Bool.and_eq_true_iff.1 hq
  obtain ⟨r, ha, hout⟩ := exists_of_any_toOption hafter
  rw [Bool.and_eq_true, List.contains_iff_mem, Bool.not_eq_true'] at hout
  exact ⟨s, f, hs, hf, hreach, hvisible, r.1, r.2, ha, hout⟩

end Scene

end TraceFold
