/-
  TraceFold.Proofs.Action.Session

  What can go wrong with an action, and what is left then.  It is said for each action when
  it is refused, and why (`Refuses`).

  That a refused action changes nothing cannot be seen from `apply`, which gives no folding
  with an error.  So the actions are written once more as programs that work on a session in
  place: what such a program has changed before it fails stays changed.  They agree with
  `apply` (`act_eq`), as each of them asks all it has to ask before it changes anything.
-/

import TraceFold.Proofs.Folding.Step

namespace TraceFold

variable {s : Scene} {f : Folding} {a : Action} {c : CodecId} {g : GraphId} {e : LookupError}

/-! ## Refused actions -/

namespace Scene

/-- Why an action is refused.  An empty graph is refused where its first codec is needed: to
    hide it, and to expand it, but not to collapse it. -/
inductive Refuses (s : Scene) (f : Folding) : Action → LookupError → Prop
  | toggleCodec {c : CodecId} (hc : s.pipeline.codecs.size ≤ c.index) :
      Refuses s f (.toggle (.codec c)) (.unknownCodec c)
  | expand {c : CodecId} (hc : s.pipeline.codecs.size ≤ c.index) :
      Refuses s f (.expand c) (.unknownCodec c)
  | toggleGraph {g : GraphId} (hg : s.pipeline.graphs.size ≤ g.index) :
      Refuses s f (.toggle (.graph g)) (.unknownGraph g)
  | hide {g : GraphId} (hg : s.pipeline.graphs.size ≤ g.index) :
      Refuses s f (.hide g) (.unknownGraph g)
  | hideEmpty {g : GraphId} (hg : g.index < s.pipeline.graphs.size)
      (hempty : s.pipeline.members g = []) :
      Refuses s f (.hide g) (.emptyGraph g)
  | expandEmpty {g : GraphId} (hg : g.index < s.pipeline.graphs.size)
      (hempty : s.pipeline.members g = []) (hcollapsed : f.graphCollapsed g) :
      Refuses s f (.toggle (.graph g)) (.emptyGraph g)

/-- A codec is unknown exactly if it has no place in the tables. -/
theorem knownCodec_eq_error :
    s.knownCodec c = .error e ↔ s.pipeline.codecs.size ≤ c.index ∧ e = .unknownCodec c := by
  unfold knownCodec
  split
  · rename_i hc
    simp [Nat.not_le.2 hc]
  · rename_i hc
    simp [Nat.not_lt.1 hc, eq_comm]

theorem knownGraph_eq_error :
    s.knownGraph g = .error e ↔ s.pipeline.graphs.size ≤ g.index ∧ e = .unknownGraph g := by
  unfold knownGraph
  cases hgraph : s.pipeline.graph? g with
  | none => simp [Array.getElem?_eq_none_iff.1 hgraph, eq_comm]
  | some graph =>
    have hg : g.index < s.pipeline.graphs.size := (Array.getElem?_eq_some_iff.1 hgraph).1
    simp [Nat.not_le.2 hg]

/-- A graph has no first codec if it is not there, or if it is empty. -/
theorem firstCodec_eq_error : s.firstCodec g = .error e ↔
    (s.pipeline.graphs.size ≤ g.index ∧ e = .unknownGraph g) ∨
      (g.index < s.pipeline.graphs.size ∧ s.pipeline.members g = [] ∧ e = .emptyGraph g) := by
  unfold firstCodec knownGraph Pipeline.members
  cases hgraph : s.pipeline.graph? g with
  | none =>
    have hg : s.pipeline.graphs.size ≤ g.index := Array.getElem?_eq_none_iff.1 hgraph
    simp [hg, Nat.not_lt.2 hg, eq_comm]
  | some graph =>
    have hg : g.index < s.pipeline.graphs.size := (Array.getElem?_eq_some_iff.1 hgraph).1
    cases hcodecs : graph.codecs with
    | nil => simp [Graph.first?, hcodecs, hg, Nat.not_le.2 hg, eq_comm]
    | cons first rest => simp [Graph.first?, hcodecs, Nat.not_le.2 hg]

/-- A toggle of a graph fails if there is no such graph, or if it is collapsed and empty. -/
theorem toggleGraph_eq_error : s.toggleGraph f g = .error e ↔
    (s.pipeline.graphs.size ≤ g.index ∧ e = .unknownGraph g) ∨
      (g.index < s.pipeline.graphs.size ∧ s.pipeline.members g = [] ∧ e = .emptyGraph g) ∧
        f.graphCollapsed g := by
  cases hcollapsed : f.graphCollapsed g with
  | true =>
    rw [toggleGraph_of_collapsed hcollapsed, map_eq_error_iff, firstCodec_eq_error]
    simp only [and_true]
  | false =>
    rw [toggleGraph_of_open hcollapsed, map_eq_error_iff, knownGraph_eq_error]
    simp only [Bool.false_eq_true, and_false, or_false]

/-- An action is refused exactly for one of the reasons, in every folding. -/
theorem apply_eq_error_iff : s.apply f a = .error e ↔ s.Refuses f a e := by
  refine ⟨fun ha => ?_, fun hrefuses => ?_⟩
  · cases a with
    | toggle node =>
      cases node with
      | codec c =>
        obtain ⟨hc, rfl⟩ := knownCodec_eq_error.1 (map_eq_error_iff.1 ha)
        exact .toggleCodec hc
      | graph g =>
        rcases toggleGraph_eq_error.1 ha with ⟨hg, rfl⟩ | ⟨⟨hg, hempty, rfl⟩, hcollapsed⟩
        · exact .toggleGraph hg
        · exact .expandEmpty hg hempty hcollapsed
    | expand c =>
      obtain ⟨hc, rfl⟩ := knownCodec_eq_error.1 (map_eq_error_iff.1 ha)
      exact .expand hc
    | hide g =>
      rcases firstCodec_eq_error.1 (map_eq_error_iff.1 ha) with ⟨hg, rfl⟩ | ⟨hg, hempty, rfl⟩
      · exact .hide hg
      · exact .hideEmpty hg hempty
    | standard collapse => cases ha
  · cases hrefuses with
    | toggleCodec hc => exact map_eq_error_iff.2 (knownCodec_eq_error.2 ⟨hc, rfl⟩)
    | expand hc => exact map_eq_error_iff.2 (knownCodec_eq_error.2 ⟨hc, rfl⟩)
    | toggleGraph hg => exact toggleGraph_eq_error.2 (Or.inl ⟨hg, rfl⟩)
    | hide hg => exact map_eq_error_iff.2 (firstCodec_eq_error.2 (Or.inl ⟨hg, rfl⟩))
    | hideEmpty hg hempty =>
      exact map_eq_error_iff.2 (firstCodec_eq_error.2 (Or.inr ⟨hg, hempty, rfl⟩))
    | expandEmpty hg hempty hcollapsed =>
      exact toggleGraph_eq_error.2 (Or.inr ⟨⟨hg, hempty, rfl⟩, hcollapsed⟩)

end Scene

/-! ## Sessions -/

/-- All that is held while a scene is on screen: the scene, and what is folded in it. -/
structure Session where
  scene : Scene
  folding : Folding

namespace Session

/-- A program that works on a session in place, and may fail. -/
abbrev Program (α : Type) : Type :=
  ExceptT LookupError (StateM Session) α

/-- Asks the scene for something that it may not have. -/
def ask {α : Type} (q : Scene → Except LookupError α) : Program α := do
  let x ← get
  match q x.scene with
  | .error e => throw e
  | .ok a => pure a

/-- Changes what is folded, and gives the nodes to look at. -/
def change (toggle : Scene → Folding → Folding × List NodeId) : Program (List NodeId) := do
  let x ← get
  let (f, nodes) := toggle x.scene x.folding
  set { x with folding := f }
  pure nodes

/-- An action, done in place. -/
def perform : Action → Program (List NodeId)
  | .toggle (.codec c) => do
    let c ← ask (·.knownCodec c)
    change (·.toggleBelow · c)
  | .toggle (.graph g) => do
    let _ ← ask (·.knownGraph g)
    let x ← get
    if x.folding.graphCollapsed g then
      let first ← ask (·.firstCodec g)
      change (·.expandGraph · g first)
    else change (·.collapseGraph · g)
  | .expand c => do
    let c ← ask (·.knownCodec c)
    change (·.expandLevel · c)
  | .hide g => do
    let first ← ask (·.firstCodec g)
    change (·.toggleHidden · g first)
  | .standard collapse =>
    change fun s f =>
      let (f, done) := s.toggleStandard collapse f
      (f, done.map .graph)

/-- Does an action: gives the nodes to look at, or why it is refused, and the session
    afterwards. -/
def act (x : Session) (a : Action) : Except LookupError (List NodeId) × Session :=
  (perform a).run.run x

/-- A session after an attempt, which has succeeded with other folds or failed without any. -/
def commit (x : Session) : Except LookupError (Folding × List NodeId) →
    Except LookupError (List NodeId) × Session
  | .error e => (.error e, x)
  | .ok (f, nodes) => (.ok nodes, { x with folding := f })

theorem run_ask {α : Type} (x : Session) (q : Scene → Except LookupError α) :
    (ask q).run.run x = (q x.scene, x) := by
  have hask : (ask q).run.run x = (match q x.scene with
      | .error e => throw e
      | .ok a => pure a : Program α).run.run x := rfl
  rw [hask]
  cases q x.scene <;> rfl

/-- A program that fails leaves out what comes behind. -/
theorem run_bind_of_error {α β : Type} {x y : Session} {p : Program α} {k : α → Program β}
    (hp : p.run.run x = (.error e, y)) : (p >>= k).run.run x = (.error e, y) := by
  rw [ExceptT.run_bind, StateT.run_bind, hp]
  rfl

theorem run_bind_of_ok {α β : Type} {x y : Session} {p : Program α} {b : α}
    {k : α → Program β} (hp : p.run.run x = (.ok b, y)) :
    (p >>= k).run.run x = (k b).run.run y := by
  rw [ExceptT.run_bind, StateT.run_bind, hp]
  rfl

/-- A program that asks and then changes leaves the session as it is if it fails. -/
theorem run_ask_change {α : Type} (x : Session) (q : Scene → Except LookupError α)
    (toggle : α → Scene → Folding → Folding × List NodeId) :
    (do let b ← ask q; change (toggle b) : Program (List NodeId)).run.run x =
      x.commit ((q x.scene).map fun b => toggle b x.scene x.folding) := by
  have hask := run_ask x q
  cases hq : q x.scene with
  | error e =>
    rw [hq] at hask
    exact run_bind_of_error hask
  | ok b =>
    rw [hq] at hask
    exact run_bind_of_ok hask

/-- The first codec of a graph is asked for after a look at the folds, but before any change. -/
theorem run_toggleGraph (x : Session) (g : GraphId) :
    (perform (.toggle (.graph g))).run.run x = x.commit (x.scene.toggleGraph x.folding g) := by
  have hask := run_ask x (·.knownGraph g)
  cases hknown : x.scene.knownGraph g with
  | error e =>
    have hrefused : x.scene.toggleGraph x.folding g = .error e := by
      unfold Scene.toggleGraph
      rw [hknown]
      rfl
    rw [hknown] at hask
    rw [hrefused]
    exact run_bind_of_error hask
  | ok graph =>
    rw [hknown] at hask
    -- the graph is known, so the fold that is looked at next decides
    refine (run_bind_of_ok hask).trans ((run_bind_of_ok (p := get) rfl).trans ?_)
    split
    · rename_i hcollapsed
      rw [Scene.toggleGraph_of_collapsed hcollapsed]
      exact run_ask_change x (·.firstCodec g) fun first s f => s.expandGraph f g first
    · rename_i hopen
      rw [Scene.toggleGraph_of_open (Bool.eq_false_iff.2 hopen), hknown]
      rfl

/-- An action applies to the folds, and only if that succeeds they are replaced. -/
theorem act_eq (x : Session) (a : Action) :
    x.act a = x.commit (x.scene.apply x.folding a) := by
  cases a with
  | toggle node =>
    cases node with
    | codec c => exact run_ask_change x (·.knownCodec c) fun c s f => s.toggleBelow f c
    | graph g => exact run_toggleGraph x g
  | expand c => exact run_ask_change x (·.knownCodec c) fun c s f => s.expandLevel f c
  | hide g => exact run_ask_change x (·.firstCodec g) fun first s f => s.toggleHidden f g first
  | standard collapse => rfl

/-! ### What an attempt leaves -/

theorem answer_act (x : Session) (a : Action) :
    (x.act a).1 = (x.scene.apply x.folding a).map Prod.snd := by
  rw [act_eq]
  cases x.scene.apply x.folding a <;> rfl

/-- No action changes the scene. -/
theorem scene_act (x : Session) (a : Action) : (x.act a).2.scene = x.scene := by
  rw [act_eq]
  cases x.scene.apply x.folding a <;> rfl

/-- A refused action leaves the whole session as it is. -/
theorem act_of_error {x : Session} (he : (x.act a).1 = .error e) : (x.act a).2 = x := by
  rw [act_eq] at he ⊢
  cases ha : x.scene.apply x.folding a with
  | error e' => rfl
  | ok r =>
    rw [ha] at he
    cases he

/-- An action fails with an error exactly if it is to be refused with it. -/
theorem act_eq_error_iff {x : Session} :
    (x.act a).1 = .error e ↔ x.scene.Refuses x.folding a e := by
  rw [answer_act, Scene.map_eq_error_iff, Scene.apply_eq_error_iff]

/-! ## Whole sessions -/

/-- A session that actions lead to, refused ones among them. -/
inductive Reached (s : Scene) : Session → Prop
  | start : Reached s ⟨s, s.start⟩
  | act {x : Session} (hx : Reached s x) (a : Action) : Reached s (x.act a).2

/-- A session stays with its scene, and refused actions lead nowhere that others do not. -/
theorem Reached.reachable {x : Session} (hx : Reached s x) :
    x.scene = s ∧ s.Reachable x.folding := by
  induction hx with
  | start => exact ⟨rfl, .start⟩
  | @act x _ a ih =>
    obtain ⟨rfl, hreach⟩ := ih
    rw [act_eq]
    cases ha : x.scene.apply x.folding a with
    | error e => exact ⟨rfl, hreach⟩
    | ok r => exact ⟨rfl, .step hreach ha⟩

theorem reached_of_reachable (hf : s.Reachable f) : Reached s ⟨s, f⟩ := by
  induction hf with
  | start => exact .start
  | @step f f' a nodes _ ha ih =>
    have hact := ih.act a
    rw [act_eq, ha] at hact
    exact hact

/-- An action succeeds, or fails for a known reason and changes nothing.  Either way it leaves
    the scene alone and the root on screen. -/
structure Atomic (x : Session) (a : Action) : Prop where
  answer_eq : (x.act a).1 = (x.scene.apply x.folding a).map Prod.snd
  refused_iff : ∀ e, (x.act a).1 = .error e ↔ x.scene.Refuses x.folding a e
  not_proxyCount : ∀ g n i found, (x.act a).1 ≠ .error (.proxyCount g n i found)
  unchanged : ∀ e, (x.act a).1 = .error e → (x.act a).2 = x
  scene_eq : (x.act a).2.scene = x.scene
  root_visible : (x.act a).2.folding.codecVisible .root

/-- Every action on a session either fails and changes nothing, or is done as a whole. -/
theorem Reached.atomic {x : Session} (hx : Reached s x) (hs : s.Sound) (a : Action) :
    x.Atomic a where
  answer_eq := answer_act x a
  refused_iff _ := act_eq_error_iff
  not_proxyCount _ _ _ _ he := nomatch act_eq_error_iff.1 he
  unchanged _ := act_of_error
  scene_eq := scene_act x a
  root_visible := ((hx.act a).reachable.2.regular hs).root_visible

/-- A scene of which every session starts with the root on screen, and is only changed by
    actions that succeed. -/
structure Steady (s : Scene) : Prop where
  start_root : s.start.codecVisible .root
  reached_of_reachable : ∀ f, s.Reachable f → Reached s ⟨s, f⟩
  scene_eq : ∀ x, Reached s x → x.scene = s
  atomic : ∀ x, Reached s x → ∀ a, x.Atomic a

/-- In every session on a scene that is built, actions are refused for the listed reasons only,
    a refused one changes nothing, and the root stays on screen. -/
theorem steady_of_build {t : Trace} {settings : Settings}
    (hbuild : Scene.build t settings = .ok s) : Steady s where
  start_root := (Scene.Regular.start (Scene.sound_of_build hbuild)).root_visible
  reached_of_reachable _ := reached_of_reachable
  scene_eq _ hx := hx.reachable.1
  atomic _ hx := hx.atomic (Scene.sound_of_build hbuild)

/-- The graph that owns nothing can be collapsed, but not expanded again. -/
theorem steady_hollow : ∃ s x, Scene.build Scene.hollow {} = .ok s ∧ Reached s x ∧
    s.Refuses x.folding (.toggle (.graph ⟨0⟩)) (.emptyGraph ⟨0⟩) ∧ Steady s := by
  have hrun : (Scene.build Scene.hollow {}).toOption.any (fun s =>
      let x := (Session.act ⟨s, s.start⟩ (.toggle (.graph ⟨0⟩))).2
      decide (0 < s.pipeline.graphs.size) && (s.pipeline.members ⟨0⟩).isEmpty
        && x.folding.graphCollapsed ⟨0⟩) = true := by
    decide +kernel
  obtain ⟨s, hs, hq⟩ := Scene.exists_of_any_toOption hrun
  simp only [Bool.and_eq_true, decide_eq_true_eq, List.isEmpty_iff] at hq
  obtain ⟨⟨hgraph, hempty⟩, hcollapsed⟩ := hq
  exact ⟨s, _, hs, Reached.start.act _, .expandEmpty hgraph hempty hcollapsed, steady_of_build hs⟩

end Session

end TraceFold
