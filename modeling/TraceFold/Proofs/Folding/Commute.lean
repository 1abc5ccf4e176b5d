/-
  TraceFold.Proofs.Folding.Commute

  Codecs that are collapsed one after the other.  Each of them hides all codecs below it,
  and a graph that owns one of these if it is collapsed or no codec of it is left just
  then.  In the end this is told without the order (`CollapsesAll`): the last collapse that
  takes a codec off a graph decides about it.  So in whichever order the codecs are
  collapsed, the folds come out the same (`collapses_commute`).
-/

import TraceFold.Proofs.Folding.Effect
import TraceFold.Proofs.Folding.Step

namespace TraceFold.Scene

open Folding
open CommandLine (applyAll)

variable {s : Scene} {f f' f₁ f₂ : Folding} {c : CodecId} {cs cs' : List CodecId}

/-- What is left of a folding once some codecs have been collapsed. -/
structure CollapsesAll (s : Scene) (f : Folding) (cs : List CodecId) (f' : Folding) : Prop where
  codecCollapsed_iff : ∀ x, f'.codecCollapsed x ↔ f.codecCollapsed x ∨ x ∈ cs
  graphCollapsed_eq : ∀ g, f'.graphCollapsed g = f.graphCollapsed g
  codecVisible_iff : ∀ x, f'.codecVisible x ↔ f.codecVisible x ∧ ∀ c ∈ cs, ¬s.Below c x
  /-- A graph that owns a codec below one of them stays if it is not collapsed and has a codec
      left. -/
  graphVisible_iff : ∀ g, f'.graphVisible g ↔ f.graphVisible g ∧ ((∃ c ∈ cs, s.OwnsBelow c g) →
    f.graphCollapsed g = false ∧ ∃ x, s.pipeline.owner? x = some g ∧ f'.codecVisible x)

namespace CollapsesAll

theorem nil (f : Folding) : s.CollapsesAll f [] f where
  codecCollapsed_iff := by simp
  graphCollapsed_eq _ := rfl
  codecVisible_iff := by simp
  graphVisible_iff := by simp

/-- One codec is collapsed before the others. -/
theorem cons (h : s.CollapsesAll (s.collapseBelow f c).1 cs f') (hs : s.Sound) (hf : s.Fits f)
    (hc : c.index < s.pipeline.codecs.size) : s.CollapsesAll f (c :: cs) f' where
  codecCollapsed_iff x := by
    rw [h.codecCollapsed_iff, codecCollapsed_collapseBelow hf hc, or_assoc, List.mem_cons]
  graphCollapsed_eq g := by rw [h.graphCollapsed_eq, graphCollapsed_collapseBelow]
  codecVisible_iff x := by
    rw [h.codecVisible_iff, codecVisible_collapseBelow hs, and_assoc, List.forall_mem_cons]
  graphVisible_iff g := by
    rw [h.graphVisible_iff, graphVisible_collapseBelow hs, graphCollapsed_collapseBelow, and_assoc,
      List.exists_mem_cons_iff]
    refine and_congr_right fun _ => ?_
    -- a codec that is left in the end has not been taken off by the first collapse
    have hleft : ∀ x, f'.codecVisible x → f.codecVisible x ∧ ¬s.Below c x := fun x hx =>
      (codecVisible_collapseBelow hs).1 ((h.codecVisible_iff x).1 hx).1
    refine ⟨fun ⟨hfirst, hlater⟩ howns => ?_, fun hall => ⟨fun hown => ?_, fun hlater => ?_⟩⟩
    · by_cases hany : ∃ d ∈ cs, s.OwnsBelow d g
      · exact hlater hany
      · -- the later collapses take nothing off the graph
        obtain ⟨hopen, x, hx, hvisible, hnot⟩ := hfirst (howns.resolve_right hany)
        refine ⟨hopen, x, hx, (h.codecVisible_iff x).2 ⟨?_, fun d hd hbelow => ?_⟩⟩
        · exact (codecVisible_collapseBelow hs).2 ⟨hvisible, hnot⟩
        · exact hany ⟨d, hd, x, hbelow, hx⟩
    · obtain ⟨hopen, x, hx, hvisible⟩ := hall (Or.inl hown)
      exact ⟨hopen, x, hx, hleft x hvisible⟩
    · exact hall (Or.inr hlater)

/-- It does not matter in which order the codecs have been collapsed. -/
theorem eq_of_perm (h : s.CollapsesAll f cs f₁) (h' : s.CollapsesAll f cs' f₂)
    (hf₁ : s.Fits f₁) (hf₂ : s.Fits f₂) (hperm : cs.Perm cs') : f₁ = f₂ := by
  have hcv : ∀ x, f₁.codecVisible x ↔ f₂.codecVisible x := fun x => by
    simp only [h.codecVisible_iff, h'.codecVisible_iff, hperm.mem_iff]
  refine hf₁.eq_of_flags hf₂ hcv (fun x => ?_) (fun g => ?_) fun g => ?_
  · rw [h.codecCollapsed_iff, h'.codecCollapsed_iff, hperm.mem_iff]
  · simp only [h.graphVisible_iff, h'.graphVisible_iff, hperm.mem_iff, hcv]
  · rw [h.graphCollapsed_eq, h'.graphCollapsed_eq]

end CollapsesAll

/-- Toggling codecs of which none is collapsed collapses them all. -/
theorem exists_collapsesAll (hs : s.Sound) (hf : s.Fits f) (hnodup : cs.Nodup)
    (hcs : ∀ c ∈ cs, c.index < s.pipeline.codecs.size ∧ f.codecCollapsed c = false) :
    ∃ f', applyAll s f (cs.map fun c => .toggle (.codec c)) = .ok f' ∧ s.Fits f' ∧
      s.CollapsesAll f cs f' := by
  induction cs generalizing f with
  | nil => exact ⟨f, rfl, hf, .nil f⟩
  | cons c cs ih =>
    obtain ⟨⟨hc, hopen⟩, hcs⟩ := List.forall_mem_cons.1 hcs
    obtain ⟨hnew, hnodup⟩ := List.nodup_cons.1 hnodup
    -- the first one is the only one that its toggle collapses, and it does not come again
    have hrest : ∀ d ∈ cs, d.index < s.pipeline.codecs.size ∧
        (s.collapseBelow f c).1.codecCollapsed d = false := fun d hd => by
      refine ⟨(hcs d hd).1, Bool.eq_false_iff.2 fun hcollapsed => ?_⟩
      rcases (codecCollapsed_collapseBelow hf hc).1 hcollapsed with hbefore | rfl
      · exact Bool.eq_false_iff.1 (hcs d hd).2 hbefore
      · exact hnew hd
    obtain ⟨f', hrun, hf', hall⟩ := ih (hf.collapseBelow c) hnodup hrest
    refine ⟨f', ?_, hf', hall.cons hs hf hc⟩
    rw [List.map_cons, applyAll, apply_of_step (.collapseBelow hc hopen)]
    exact hrun

/-- Codecs of which none is collapsed can be toggled in any order, whatever the states of the
    nodes, and the folds are the same afterwards. -/
theorem collapses_commute {t : Trace} {settings : Settings}
    (hbuild : Scene.build t settings = .ok s) (hf : s.Fits f) (hnodup : cs.Nodup)
    (hcs : ∀ c ∈ cs, c.index < s.pipeline.codecs.size ∧ f.codecCollapsed c = false) :
    ∃ f', s.CollapsesAll f cs f' ∧ ∀ cs' : List CodecId, cs'.Perm cs →
      applyAll s f (cs'.map fun c => .toggle (.codec c)) = .ok f' := by
  have hs := sound_of_build hbuild
  obtain ⟨f', -, hf', hall⟩ := exists_collapsesAll hs hf hnodup hcs
  refine ⟨f', hall, fun cs' hperm => ?_⟩
  obtain ⟨f'', hrun, hf'', hall'⟩ := exists_collapsesAll hs hf (hperm.nodup_iff.2 hnodup)
    fun c hc => hcs c (hperm.mem_iff.1 hc)
  rw [hrun, hall'.eq_of_perm hall hf'' hf' hperm]

/-- One of two codecs leaves the graph below them on screen when it is collapsed; after both, in
    either order, it has gone. -/
theorem collapses_commute_shortcut : ∃ s f₁ f', Scene.build shortcut {} = .ok s ∧
    s.Fits s.start ∧ s.start.codecCollapsed ⟨1⟩ = false ∧ s.start.codecCollapsed ⟨2⟩ = false ∧
    s.CollapsesAll s.start [⟨1⟩, ⟨2⟩] f' ∧
    applyAll s s.start [.toggle (.codec ⟨2⟩)] = .ok f₁ ∧ f₁.graphVisible ⟨0⟩ = true ∧
    applyAll s s.start [.toggle (.codec ⟨1⟩), .toggle (.codec ⟨2⟩)] = .ok f' ∧
    applyAll s s.start [.toggle (.codec ⟨2⟩), .toggle (.codec ⟨1⟩)] = .ok f' ∧
    f'.graphVisible ⟨0⟩ = false := by
  have hrun : (Scene.build shortcut {}).toOption.any (fun s =>
      !s.start.codecCollapsed ⟨1⟩ && !s.start.codecCollapsed ⟨2⟩ &&
        (applyAll s s.start [.toggle (.codec ⟨2⟩)]).toOption.any (·.graphVisible ⟨0⟩) &&
        (applyAll s s.start [.toggle (.codec ⟨1⟩), .toggle (.codec ⟨2⟩)]).toOption.any
          fun f => !f.graphVisible ⟨0⟩) = true := by
    decide +kernel
  obtain ⟨s, hs, hq⟩ := exists_of_any_toOption hrun
  simp only [Bool.and_eq_true, Bool.not_eq_true'] at hq
  obtain ⟨⟨⟨hopen₁, hopen₂⟩, hone⟩, hboth⟩ := hq
  obtain ⟨f₁, hf₁, hleft⟩ := exists_of_any_toOption hone
  obtain ⟨f', hf', hgone⟩ := exists_of_any_toOption hboth
  have hsize : s.pipeline.codecs.size = 5 := size_codecs_of_build hs
  have hf : s.Fits s.start := (Regular.start (sound_of_build hs)).toFits
  have hcs : ∀ c ∈ [(⟨1⟩ : CodecId), ⟨2⟩],
      c.index < s.pipeline.codecs.size ∧ s.start.codecCollapsed c = false := by
    simp [hsize, hopen₁, hopen₂]
  obtain ⟨f'', hall, hperm⟩ := collapses_commute hs hf (by decide) hcs
  obtain rfl := Except.ok.inj (hf'.symm.trans (hperm _ (.refl _)))
  exact ⟨s, f₁, f', hs, hf, hopen₁, hopen₂, hall, hf₁, hleft, hf', hperm _ (.swap _ _ _),
    by simpa using hgone⟩

end TraceFold.Scene
