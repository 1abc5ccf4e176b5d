/-
  TraceFold.Proofs.Folding.Undo

  When toggling a codec twice changes nothing on screen.  Collapsing hides everything
  below the codec, expanding shows what a descent to the collapsed codecs meets.  So the
  second toggle undoes the first one exactly if, below the codec, nothing but that was on
  screen before (`Spread`), or, if the codec was collapsed, nothing at all (`Tucked`).  It
  is so while nothing has been folded, but not always: where two branches join, one can be
  collapsed and the other one toggled.
-/

import TraceFold.Proofs.Folding.Effect

namespace TraceFold.Scene

open Folding

variable {s : Scene} {f : Folding} {c x : CodecId} {g : GraphId}

/-! ## Foldings in which a second toggle undoes the first -/

/-- Below a codec that is not collapsed, the codecs on screen are those that expanding it
    would show, and so are the graphs, apart from some that collapsing it would keep. -/
structure Spread (s : Scene) (f : Folding) (c : CodecId) : Prop where
  codecs : ∀ x, s.Below c x → (f.codecVisible x ↔ s.Bared f c x)
  graphs_met : ∀ g, s.OwnsMet f c g → f.graphVisible g
  graphs_kept : ∀ g, s.OwnsBelow c g → f.graphVisible g → s.OwnsMet f c g ∨ s.Kept f c g

/-- Below a codec that is collapsed, no codec is on screen, and only graphs that collapsing
    it would keep are: all of those that expanding it would show. -/
structure Tucked (s : Scene) (f : Folding) (c : CodecId) : Prop where
  codecs : ∀ x, s.Below c x → f.codecVisible x = false
  graphs_met : ∀ g, s.OwnsMet f c g → s.Kept f c g → f.graphVisible g
  graphs_kept : ∀ g, s.OwnsBelow c g → f.graphVisible g → s.Kept f c g

/-- What is on screen below a codec is what two toggles of it leave there. -/
def Undoable (s : Scene) (f : Folding) (c : CodecId) : Prop :=
  if f.codecCollapsed c then s.Tucked f c else s.Spread f c

/-! ## What two toggles leave on screen -/

/-- The folds after two toggles of one codec. -/
def toggleTwice (s : Scene) (f : Folding) (c : CodecId) : Folding :=
  (s.toggleBelow (s.toggleBelow f c).1 c).1

/-- Two toggles of a codec that is not collapsed collapse it and expand it again. -/
theorem toggleTwice_of_open (h : s.Regular f) (hc : c.index < s.pipeline.codecs.size)
    (hopen : f.codecCollapsed c = false) :
    s.toggleTwice f c = (s.expandBelow (s.collapseBelow f c).1 c).1 := by
  have hcollapsed : (s.collapseBelow f c).1.codecCollapsed c :=
    (codecCollapsed_collapseBelow h.toFits hc).2 (Or.inr rfl)
  have hfirst : s.toggleBelow f c = s.collapseBelow f c := by simp [toggleBelow, hopen]
  rw [toggleTwice, hfirst, toggleBelow, if_pos hcollapsed]

/-- Two toggles of a collapsed codec expand it and collapse it again. -/
theorem toggleTwice_of_collapsed (hcollapsed : f.codecCollapsed c) :
    s.toggleTwice f c = (s.collapseBelow (s.expandBelow f c).1 c).1 := by
  have hopen : ¬(s.expandBelow f c).1.codecCollapsed c := fun hc =>
    (codecCollapsed_expandBelow.1 hc).2 rfl
  have hfirst : s.toggleBelow f c = s.expandBelow f c := by simp [toggleBelow, hcollapsed]
  rw [toggleTwice, hfirst, toggleBelow, if_neg hopen]

section Visible

variable (hs : s.Sound) (h : s.Regular f)
include hs h

/-- Of a codec that was not collapsed, what is bared is on screen in the end, and what is not
    below. -/
theorem codecVisible_twice_of_open (hc : c.index < s.pipeline.codecs.size)
    (hopen : f.codecCollapsed c = false) : (s.toggleTwice f c).codecVisible x ↔
      f.codecVisible x ∧ ¬s.Below c x ∨ s.Bared f c x := by
  rw [toggleTwice_of_open h hc hopen, codecVisible_expandBelow hs (h.collapseBelow hs c).toFits,
    codecVisible_collapseBelow hs, (agreeBelow_collapseBelow hs h.toFits hc).bared]

theorem graphVisible_twice_of_open (hc : c.index < s.pipeline.codecs.size)
    (hopen : f.codecCollapsed c = false) : (s.toggleTwice f c).graphVisible g ↔
      f.graphVisible g ∧ (s.OwnsBelow c g → s.Kept f c g) ∨ s.OwnsMet f c g := by
  rw [toggleTwice_of_open h hc hopen, graphVisible_expandBelow hs (h.collapseBelow hs c).toFits,
    graphVisible_collapseBelow hs, (agreeBelow_collapseBelow hs h.toFits hc).ownsMet]

/-- Of a collapsed codec, nothing below it is on screen in the end. -/
theorem codecVisible_twice_of_collapsed (hcollapsed : f.codecCollapsed c) :
    (s.toggleTwice f c).codecVisible x ↔ f.codecVisible x ∧ ¬s.Below c x := by
  rw [toggleTwice_of_collapsed hcollapsed, codecVisible_collapseBelow hs]
  exact and_congr_left (codecVisible_expandBelow_of_not_below hs h.toFits)

/-- Expanding keeps no further graph, as what it shows is below the codec. -/
theorem kept_expandBelow : s.Kept (s.expandBelow f c).1 c g ↔ s.Kept f c g := by
  unfold Kept
  rw [graphCollapsed_expandBelow]
  refine and_congr_right fun _ => exists_congr fun x => and_congr_right fun _ => ?_
  exact and_congr_left (codecVisible_expandBelow_of_not_below hs h.toFits)

theorem graphVisible_twice_of_collapsed (hcollapsed : f.codecCollapsed c) :
    (s.toggleTwice f c).graphVisible g ↔
      (f.graphVisible g ∨ s.OwnsMet f c g) ∧ (s.OwnsBelow c g → s.Kept f c g) := by
  rw [toggleTwice_of_collapsed hcollapsed, graphVisible_collapseBelow hs,
    graphVisible_expandBelow hs h.toFits, kept_expandBelow hs h]

end Visible

/-! ## When two toggles change nothing -/

/-- Two foldings have the same nodes on screen. -/
def SameScreen (f f' : Folding) : Prop :=
  ∀ n, f.nodeVisible n = f'.nodeVisible n

/-- The screens are the same if the same codecs and the same graphs are on them. -/
theorem sameScreen_iff {f' : Folding} : SameScreen f f' ↔
    (∀ c, f.codecVisible c ↔ f'.codecVisible c) ∧ ∀ g, f.graphVisible g ↔ f'.graphVisible g := by
  refine ⟨fun h => ⟨fun c => ?_, fun g => ?_⟩, fun ⟨hcodecs, hgraphs⟩ n => ?_⟩
  · exact Bool.eq_iff_iff.1 (h (.codec c))
  · exact Bool.eq_iff_iff.1 (h (.graph g))
  · cases n with
    | codec c => exact Bool.eq_iff_iff.2 (hcodecs c)
    | graph g => exact Bool.eq_iff_iff.2 (hgraphs g)

/-- Two toggles leave the screen of a codec that is not collapsed as it is exactly if all below
    is spread. -/
theorem sameScreen_iff_spread (hs : s.Sound) (h : s.Regular f)
    (hc : c.index < s.pipeline.codecs.size) (hopen : f.codecCollapsed c = false) :
    SameScreen (s.toggleTwice f c) f ↔ s.Spread f c := by
  simp only [sameScreen_iff, codecVisible_twice_of_open hs h hc hopen,
    graphVisible_twice_of_open hs h hc hopen]
  refine ⟨fun ⟨hcodecs, hgraphs⟩ => ⟨fun x hx => ?_, fun g hg => ?_, fun g hg hvisible => ?_⟩,
    fun hspread => ⟨fun x => ?_, fun g => ?_⟩⟩
  · rw [← hcodecs x]
    exact or_iff_right fun hvisible => hvisible.2 hx
  · exact (hgraphs g).1 (Or.inr hg)
  · rcases (hgraphs g).2 hvisible with hkept | hmet
    · exact Or.inr (hkept.2 hg)
    · exact Or.inl hmet
  · -- below the codec only what was shown again counts, elsewhere only what was kept
    by_cases hx : s.Below c x
    · rw [hspread.codecs x hx]
      exact or_iff_right fun hvisible => hvisible.2 hx
    · have hnot : ¬s.Bared f c x := fun hbared => hx hbared.1.below_start
      rw [or_iff_left hnot, and_iff_left hx]
  · refine ⟨fun hor => ?_, fun hvisible => ?_⟩
    · rcases hor with hleft | hmet
      · exact hleft.1
      · exact hspread.graphs_met g hmet
    · by_cases hg : s.OwnsBelow c g
      · rcases hspread.graphs_kept g hg hvisible with hmet | hkept
        · exact Or.inr hmet
        · exact Or.inl ⟨hvisible, fun _ => hkept⟩
      · exact Or.inl ⟨hvisible, fun hbelow => absurd hbelow hg⟩

/-- Two toggles leave the screen of a collapsed codec as it is exactly if all below is tucked
    in. -/
theorem sameScreen_iff_tucked (hs : s.Sound) (h : s.Regular f) (hcollapsed : f.codecCollapsed c) :
    SameScreen (s.toggleTwice f c) f ↔ s.Tucked f c := by
  simp only [sameScreen_iff, codecVisible_twice_of_collapsed hs h hcollapsed,
    graphVisible_twice_of_collapsed hs h hcollapsed]
  refine ⟨fun ⟨hcodecs, hgraphs⟩ => ⟨fun x hx => ?_, fun g hg hkept => ?_, fun g hg hvisible => ?_⟩,
    fun htucked => ⟨fun x => ?_, fun g => ?_⟩⟩
  · exact Bool.eq_false_iff.2 fun hvisible => ((hcodecs x).2 hvisible).2 hx
  · exact (hgraphs g).1 ⟨Or.inr hg, fun _ => hkept⟩
  · exact ((hgraphs g).2 hvisible).2 hg
  · refine and_iff_left_of_imp fun hvisible hx => ?_
    rw [htucked.codecs x hx] at hvisible
    cases hvisible
  · refine ⟨fun ⟨hor, hkept⟩ => ?_, fun hvisible => ⟨Or.inl hvisible, fun hg => ?_⟩⟩
    · rcases hor with hvisible | hmet
      · exact hvisible
      · exact htucked.graphs_met g hmet (hkept hmet.ownsBelow)
    · exact htucked.graphs_kept g hg hvisible

theorem Regular.sameScreen_iff_undoable (h : s.Regular f) (hs : s.Sound)
    (hc : c.index < s.pipeline.codecs.size) :
    SameScreen (s.toggleTwice f c) f ↔ s.Undoable f c := by
  unfold Undoable
  split
  · rename_i hcollapsed
    exact sameScreen_iff_tucked hs h hcollapsed
  · rename_i hopen
    exact sameScreen_iff_spread hs h hc (Bool.eq_false_iff.2 hopen)

/-- Of every folding that can be reached, two toggles of a codec leave the same nodes on
    screen exactly if what is on screen below it is what the second toggle leaves there. -/
theorem toggle_twice_iff {t : Trace} {settings : Settings}
    (hbuild : Scene.build t settings = .ok s) (hf : s.Reachable f)
    (hc : c.index < s.pipeline.codecs.size) :
    ∃ f₁ f₂ nodes₁ nodes₂, s.apply f (.toggle (.codec c)) = .ok (f₁, nodes₁) ∧
      s.apply f₁ (.toggle (.codec c)) = .ok (f₂, nodes₂) ∧
      (SameScreen f₂ f ↔ s.Undoable f c) := by
  have hs := sound_of_build hbuild
  exact ⟨_, _, _, _, apply_toggle_codec hc, apply_toggle_codec hc,
    (hf.regular hs).sameScreen_iff_undoable hs hc⟩

theorem toggle_twice_diamond : ∃ s f, Scene.build diamond {} = .ok s ∧ s.Reachable f ∧
    f = (s.toggleBelow s.start ⟨1⟩).1 ∧ 2 < s.pipeline.codecs.size ∧
    ∃ f₁ f₂ nodes₁ nodes₂, s.apply f (.toggle (.codec ⟨2⟩)) = .ok (f₁, nodes₁) ∧
      s.apply f₁ (.toggle (.codec ⟨2⟩)) = .ok (f₂, nodes₂) ∧
      (SameScreen f₂ f ↔ s.Undoable f ⟨2⟩) := by
  obtain ⟨s, hs⟩ := exists_build_diamond
  have hsize : s.pipeline.codecs.size = 4 := size_codecs_of_build hs
  have hknown : 2 < s.pipeline.codecs.size := by
    rw [hsize]
    decide
  have hf : s.Reachable (s.toggleBelow s.start ⟨1⟩).1 := by
    refine Reachable.start.toggleBelow ?_
    rw [hsize]
    decide
  exact ⟨s, _, hs, hf, rfl, hknown, toggle_twice_iff hs hf hknown⟩

/-- With one branch of a join collapsed, two toggles of the other branch show the join,
    which was hidden. -/
theorem exists_shown_by_two_toggles : ∃ s f, Scene.build diamond {} = .ok s ∧ s.Reachable f ∧
    ∃ f₁ f₂ nodes₁ nodes₂, s.apply f (.toggle (.codec ⟨2⟩)) = .ok (f₁, nodes₁) ∧
      s.apply f₁ (.toggle (.codec ⟨2⟩)) = .ok (f₂, nodes₂) ∧
      f.codecVisible ⟨3⟩ = false ∧ f₂.codecVisible ⟨3⟩ = true := by
  have hrun : (Scene.build diamond {}).toOption.any (fun s =>
      !(s.toggleBelow s.start ⟨1⟩).1.codecVisible ⟨3⟩ &&
        (s.toggleTwice (s.toggleBelow s.start ⟨1⟩).1 ⟨2⟩).codecVisible ⟨3⟩) = true := by
    decide +kernel
  obtain ⟨s, hs⟩ := exists_build_diamond
  have hknown : s.pipeline.codecs.size = 4 := size_codecs_of_build hs
  simp only [hs, Except.toOption, Option.any_some, Bool.and_eq_true, Bool.not_eq_true'] at hrun
  refine ⟨s, (s.toggleBelow s.start ⟨1⟩).1, hs, Reachable.start.toggleBelow ?_, _, _, _, _,
    apply_toggle_codec ?_, apply_toggle_codec ?_, hrun⟩
  all_goals
    rw [hknown]
    decide

/-- While nothing has been folded, toggling any codec twice changes nothing on screen. -/
theorem undoable_unfolded (hs : s.Sound) : s.Undoable (Folding.unfolded s.pipeline) c := by
  have hmet : ∀ x, s.Below c x → s.Met (Folding.unfolded s.pipeline) .stopAtCollapsed c x := by
    intro x hx
    refine hx.met_or_stop.resolve_right ?_
    rintro ⟨u, -, hu⟩
    rw [codecCollapsed_unfolded] at hu
    cases hu
  -- with nothing collapsed, all that is below is met and nothing is inside a collapsed graph
  unfold Undoable
  rw [codecCollapsed_unfolded, if_neg Bool.false_ne_true]
  refine ⟨fun x hx => ⟨fun _ => ⟨hmet x hx, fun g _ => graphCollapsed_unfolded⟩, fun _ => ?_⟩,
    fun g hg => ?_, fun g hg _ => Or.inl ?_⟩
  · exact codecVisible_unfolded.2 (hs.below_known hx)
  · obtain ⟨x, -, hown⟩ := hg
    exact graphVisible_unfolded.2 (hs.graph_lt hown)
  · obtain ⟨x, hx, hown⟩ := hg
    exact ⟨x, hmet x hx, hown⟩

end TraceFold.Scene
