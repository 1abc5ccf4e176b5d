/-
  TraceFold.Proofs.Folding.Search

  What a descent from a codec finds, told twice.  As a set it is told by paths in the
  codecs' graph (`PathDown`); as a list, by the search that calls itself for the children
  of each new codec and hands on what has been seen so far (`search`).  A descent keeps
  frames where the search makes calls.  What the frames have left to try makes one list,
  and the walk through it finds the same codecs in the same order (`walk_append_search`).
-/

import TraceFold.Proofs.Folding.Step

namespace TraceFold

/-! ## What is left to find -/

namespace Dag

theorem unfoundAt_le {d : Dag} {found found' : List CodecId} (h : ∀ c ∈ found, c ∈ found')
    (i : Nat) : d.unfoundAt found' i ≤ d.unfoundAt found i := by
  unfold unfoundAt
  by_cases hi : (⟨i⟩ : CodecId) ∈ found
  · rw [if_pos (List.contains_iff_mem.2 (h _ hi))]
    exact Nat.zero_le _
  · have hnew : ¬found.contains (⟨i⟩ : CodecId) := fun hc => hi (List.contains_iff_mem.1 hc)
    rw [if_neg hnew]
    split
    · exact Nat.zero_le _
    · exact Nat.le_refl _

/-- The more has been found, the less is left. -/
theorem unfound_le {d : Dag} {found found' : List CodecId} (h : ∀ c ∈ found, c ∈ found') :
    d.unfound found' ≤ d.unfound found := by
  unfold unfound
  induction List.range d.children.size with
  | nil => exact Nat.le_refl _
  | cons i is ih => exact Nat.add_le_add (unfoundAt_le h i) ih

theorem unfound_append_le {d : Dag} {more found : List CodecId} :
    d.unfound (more ++ found) ≤ d.unfound found :=
  unfound_le fun _ => List.mem_append_right more

end Dag

namespace Scene

open Folding
open Dag (Child)

variable {s : Scene} {f f' : Folding} {d : Descent} {start v : CodecId}
  {pending seen rest : List CodecId}

/-! ## The search that calls itself -/

/-- What a depth-first search reports that tries some codecs in order, where `seen` is what
    it has met before, latest first.  A codec that is new is reported before what the search
    of its children reports, and that search shares what has been seen with those after it. -/
def search (s : Scene) (f : Folding) (d : Descent) (pending seen : List CodecId) :
    List CodecId :=
  match pending with
  | [] => []
  | c :: rest =>
    if _hc : c ∈ seen then s.search f d rest seen
    else if s.meets d c then
      if f.goesOn d c then
        let inner := s.search f d (s.dag.childrenOf c) (c :: seen)
        c :: (inner ++ s.search f d rest (inner.reverse ++ c :: seen))
      else c :: s.search f d rest (c :: seen)
    else s.search f d rest seen
termination_by pending.length + s.dag.unfound seen
decreasing_by
  · simp
  · have := s.dag.unfound_cons _hc
    simp
    omega
  · -- whatever the search of the children has reported, no more is left than before it
    have hfind := s.dag.unfound_cons _hc
    refine Nat.lt_of_le_of_lt (Nat.add_le_add_left Dag.unfound_append_le _) ?_
    simp
    omega
  · have := s.dag.unfound_cons _hc
    simp
    omega
  · simp

/-- A walk through what is pending finds what the search reports from there, and then goes on
    with the rest. -/
theorem walk_append_search : s.walk f d (pending ++ rest) seen
    = s.walk f d rest ((s.search f d pending seen).reverse ++ seen) := by
  fun_induction search s f d pending seen generalizing rest with
  | case1 seen => rfl
  | case2 seen c pending hc ih =>
    rw [List.cons_append, walk, dif_pos hc]
    exact ih
  | case3 seen c pending hc hmeets hgo inner ihinner =>
    rename_i ihlater
    rw [List.cons_append, walk, dif_neg hc, if_pos hmeets, if_pos hgo]
    -- the walk has the children in front of what is pending, the search calls itself for them
    rw [ihinner, ihlater, List.reverse_cons, List.reverse_append]
    simp only [List.append_assoc, List.singleton_append]
  | case4 seen c pending hc hmeets hstop ih =>
    rw [List.cons_append, walk, dif_neg hc, if_pos hmeets, if_neg hstop, ih, List.reverse_cons,
      List.append_assoc, List.singleton_append]
  | case5 seen c pending hc hnot ih =>
    rw [List.cons_append, walk, dif_neg hc, if_neg hnot]
    exact ih

/-- The descent from a codec lists what the search of its children reports. -/
theorem descendants_eq_search :
    s.descendants f d start = s.search f d (s.dag.childrenOf start) [] := by
  have hwalk : s.walk f d (s.dag.childrenOf start ++ []) []
      = s.walk f d [] ((s.search f d (s.dag.childrenOf start) []).reverse ++ []) :=
    walk_append_search
  rw [List.append_nil, List.append_nil, walk, List.reverse_reverse] at hwalk
  rw [descendants_eq_walk, hwalk]

/-! ## Paths that a descent can take -/

/-- A path leads down from a codec to another one that a descent can take: without bounds any
    path, else one with no collapsed codec in between, and within a graph one on which the
    graph owns every codec behind the start. -/
def PathDown (s : Scene) (f : Folding) (d : Descent) (start v : CodecId) : Prop :=
  ∃ inner : List CodecId, (start :: (inner ++ [v])).IsChain (Child s.dag.children) ∧
    (d ≠ .unbounded → ∀ u ∈ inner, f.codecCollapsed u = false) ∧
    ∀ g, d = .within g → ∀ u ∈ inner ++ [v], s.pipeline.owner? u = some g

theorem goesOn_iff {c : CodecId} :
    f.goesOn d c ↔ (d ≠ .unbounded → f.codecCollapsed c = false) := by
  cases d <;> simp [Folding.goesOn]

theorem meets_iff {c : CodecId} :
    s.meets d c ↔ ∀ g, d = .within g → s.pipeline.owner? c = some g := by
  cases d <;> simp [meets]

theorem met_iff_pathDown : s.Met f d start v ↔ s.PathDown f d start v := by
  rw [met_iff_exists_path, PathDown]
  refine exists_congr fun inner => and_congr_right fun _ => and_congr ?_ ?_
  · simp only [goesOn_iff]
    exact ⟨fun h hd u hu => h u hu hd, fun h u hu hd => h hd u hu⟩
  · simp only [meets_iff]
    exact ⟨fun h g hg u hu => h u hu g hg, fun h u hu g hg => h g hg u hu⟩

/-! ## What a descent finds -/

/-- A list is what a descent from a codec finds. -/
structure FoundFrom (s : Scene) (f : Folding) (d : Descent) (start : CodecId)
    (found : List CodecId) : Prop where
  nodup : found.Nodup
  start_notMem : start ∉ found
  mem_iff : ∀ v, v ∈ found ↔ s.PathDown f d start v
  eq_search : found = s.search f d (s.dag.childrenOf start) []
  /-- It makes no difference whether the codec itself is collapsed. -/
  eq_of_start : ∀ f', (∀ u, u ≠ start → f'.codecCollapsed u = f.codecCollapsed u) →
    s.descendants f' d start = found

/-- The descent from any codec of a pipeline, whatever is collapsed, finds each codec once
    that a path of its manner leads to, in the order of the search that calls itself. -/
theorem foundFrom_descendants {t : Trace} {settings : Settings}
    (hbuild : Scene.build t settings = .ok s) (f : Folding) (d : Descent) (start : CodecId) :
    s.FoundFrom f d start (s.descendants f d start) := by
  have hs := sound_of_build hbuild
  refine ⟨nodup_descendants, fun hmem => ?_, fun v => ?_, descendants_eq_search, fun f' h => ?_⟩
  · -- a codec that met itself would be below itself
    have hbelow : s.Below start start := (mem_descendants.1 hmem).below_start
    exact hs.ne_of_below hbelow rfl
  · rw [mem_descendants, met_iff_pathDown]
  · exact descendants_congr fun u hu => h u (hs.ne_of_below hu)

/-- Of a pipeline with a shortcut, the start and the codec behind it on the long way are
    collapsed. -/
def narrowed (p : Pipeline) : Folding :=
  (unfolded p).moveCodecs .collapse [⟨0⟩, ⟨1⟩]

/-- Without bounds the last codec is found on the long way, and else on the short one.  Within
    the graph that owns it, the search may start at a codec outside, collapsed or not. -/
theorem foundFrom_descendants_shortcut : ∃ s f, Scene.build shortcut {} = .ok s ∧
    f = narrowed s.pipeline ∧ f.codecCollapsed ⟨0⟩ = true ∧ f.codecCollapsed ⟨1⟩ = true ∧
    s.FoundFrom f .unbounded ⟨0⟩ [⟨1⟩, ⟨3⟩, ⟨4⟩, ⟨2⟩] ∧
    s.FoundFrom f .stopAtCollapsed ⟨0⟩ [⟨1⟩, ⟨2⟩, ⟨4⟩] ∧
    s.FoundFrom f (.within ⟨0⟩) ⟨1⟩ [⟨3⟩, ⟨4⟩] := by
  have hrun : (Scene.build shortcut {}).toOption.any (fun s =>
      (narrowed s.pipeline).codecCollapsed ⟨0⟩ && (narrowed s.pipeline).codecCollapsed ⟨1⟩ &&
        s.descendants (narrowed s.pipeline) .unbounded ⟨0⟩ = [⟨1⟩, ⟨3⟩, ⟨4⟩, ⟨2⟩] &&
        s.descendants (narrowed s.pipeline) .stopAtCollapsed ⟨0⟩ = [⟨1⟩, ⟨2⟩, ⟨4⟩] &&
        s.descendants (narrowed s.pipeline) (.within ⟨0⟩) ⟨1⟩ = [⟨3⟩, ⟨4⟩]) = true := by
    decide +kernel
  obtain ⟨s, hs, hq⟩ := exists_of_any_toOption hrun
  simp only [Bool.and_eq_true, decide_eq_true_eq] at hq
  obtain ⟨⟨⟨⟨hstart, hnext⟩, hunbounded⟩, hstop⟩, hwithin⟩ := hq
  have hfound := foundFrom_descendants hs (narrowed s.pipeline)
  refine ⟨s, _, hs, rfl, hstart, hnext, ?_, ?_, ?_⟩
  · exact hunbounded ▸ hfound .unbounded ⟨0⟩
  · exact hstop ▸ hfound .stopAtCollapsed ⟨0⟩
  · exact hwithin ▸ hfound (.within ⟨0⟩) ⟨1⟩

end Scene

end TraceFold
