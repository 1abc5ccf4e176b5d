/-
  TraceFold.Proofs.Folding.HideAll

  Hiding graphs one after the other.  A codec is off the screen in the end if one of the
  graphs takes it off by itself: what an earlier one collapses, it takes off as well, so
  the order does not matter (`codecVisible_hideAll`).  Collapsing all standard graphs is
  such a sequence, and so is what happens at the start; expanding them restores graphs one
  after the other.
-/

import TraceFold.Proofs.Folding.Standard

namespace TraceFold.Scene

open Folding

variable {s : Scene} {f : Folding} {x first : CodecId} {g h : GraphId} {gs : List GraphId}
  {l : List (GraphId × CodecId)}

/-- Hides graphs, each at a codec. -/
def hideAll (s : Scene) (f : Folding) (l : List (GraphId × CodecId)) : Folding :=
  l.foldl (fun f p => (s.hideGraph f p.1 p.2).1) f

/-- Every graph of a list comes with its first codec. -/
def AtFirst (s : Scene) (l : List (GraphId × CodecId)) : Prop :=
  ∀ p ∈ l, s.firstCodec p.1 = .ok p.2

/-! ## What hiding does -/

/-- A codec that one of two graphs takes off the screen is taken off if they are hidden one
    after the other, and no other codec is. -/
theorem swept_hideGraph_iff (hf : s.Fits f) (hknown : first.index < s.pipeline.codecs.size)
    {c : CodecId} : s.Swept f first x ∨ s.Swept (s.hideGraph f g first).1 c x ↔
      s.Swept f first x ∨ s.Swept f c x := by
  by_cases hx : s.Swept f first x
  · exact iff_of_true (Or.inl hx) (Or.inl hx)
  · rw [or_iff_right hx, or_iff_right hx]
    unfold Swept
    refine or_congr_right (and_congr_left fun hbelow => ?_)
    rw [← Bool.not_eq_true, ← Bool.not_eq_true, codecCollapsed_hideGraph hf hknown, not_or]
    refine and_iff_left_of_imp fun hopen => ?_
    -- only the codec that was hidden has been collapsed, and it has nothing left below it
    rintro rfl
    exact hx (Or.inr ⟨Bool.eq_false_iff.2 hopen, hbelow⟩)

theorem codecVisible_hideAll (hs : s.Sound) (hf : s.Fits f) (hl : s.AtFirst l) :
    (s.hideAll f l).codecVisible x ↔
      f.codecVisible x ∧ ((∃ p ∈ l, s.Swept f p.2 x) → x = .root) := by
  induction l generalizing f with
  | nil => simp [hideAll]
  | cons p l ih =>
    obtain ⟨hp, hl⟩ := List.forall_mem_cons.1 hl
    have hstep : s.hideAll f (p :: l) = s.hideAll (s.hideGraph f p.1 p.2).1 l := rfl
    -- what is swept by the later graphs may have been swept by the first one instead
    have hsweep : s.Swept f p.2 x ∨ (∃ q ∈ l, s.Swept (s.hideGraph f p.1 p.2).1 q.2 x) ↔
        s.Swept f p.2 x ∨ ∃ q ∈ l, s.Swept f q.2 x := by
      have hboth := fun c => swept_hideGraph_iff (x := x) (g := p.1) (c := c) hf (hs.first_known hp)
      refine ⟨?_, ?_⟩
      · rintro (hx | ⟨q, hq, hx⟩)
        · exact Or.inl hx
        · exact ((hboth q.2).1 (Or.inr hx)).imp_right fun hx => ⟨q, hq, hx⟩
      · rintro (hx | ⟨q, hq, hx⟩)
        · exact Or.inl hx
        · exact ((hboth q.2).2 (Or.inr hx)).imp_right fun hx => ⟨q, hq, hx⟩
    rw [hstep, ih (hf.hideGraph p.1 p.2) hl, codecVisible_hideGraph hs, and_assoc, ← or_imp,
      hsweep, List.exists_mem_cons_iff]

theorem graphCollapsed_hideAll (hs : s.Sound) (hf : s.Fits f) (hl : s.AtFirst l) :
    (s.hideAll f l).graphCollapsed h ↔ f.graphCollapsed h ∨ ∃ p ∈ l, h = p.1 := by
  induction l generalizing f with
  | nil => simp [hideAll]
  | cons p l ih =>
    obtain ⟨hp, hl⟩ := List.forall_mem_cons.1 hl
    have hstep : s.hideAll f (p :: l) = s.hideAll (s.hideGraph f p.1 p.2).1 l := rfl
    rw [hstep, ih (hf.hideGraph p.1 p.2) hl, graphCollapsed_hideGraph_of_first hs hf hp, or_assoc,
      List.exists_mem_cons_iff]

/-! ## Where graphs are hidden one after the other -/

/-- A pass that collapses hides the graphs that it toggles. -/
theorem exists_settleAll_eq_hideAll (s : Scene) (f : Folding) (gs : List GraphId) :
    ∃ l, s.AtFirst l ∧ l.map Prod.fst = (s.settleAll true f gs).2 ∧
      (s.settleAll true f gs).1 = s.hideAll f l := by
  induction gs generalizing f with
  | nil => exact ⟨[], fun p hp => absurd hp List.not_mem_nil, rfl, rfl⟩
  | cons g gs ih =>
    cases hstep : s.settleStandard? true f g with
    | none =>
      rw [settleAll_cons_of_none hstep]
      exact ih f
    | some f₁ =>
      rw [settleAll_cons_of_some hstep]
      obtain ⟨-, hne, first, hfirst, rfl⟩ := settleStandard?_eq_some.1 hstep
      obtain ⟨l, hl, hdone, heq⟩ := ih (s.toggleHidden f g first).1
      have hhide : s.toggleHidden f g first = s.hideGraph f g first := by
        rw [toggleHidden, if_neg hne]
      rw [hhide] at hdone heq ⊢
      refine ⟨(g, first) :: l, List.forall_mem_cons.2 ⟨?_, hl⟩, ?_, heq⟩
      · exact firstCodec_of_standardFirst? hfirst
      · rw [List.map_cons, hdone]

/-- A pass that expands restores graphs one after the other, so it keeps what restoring a
    graph keeps. -/
theorem settleAll_false_induction {P : Folding → Prop} (hf : s.Regular f) (h : P f)
    (hstep : ∀ f g first, s.Regular f → P f → s.firstCodec g = .ok first →
      P (s.restoreGraph f g first).1) (gs : List GraphId) : P (s.settleAll false f gs).1 := by
  induction gs generalizing f with
  | nil => exact h
  | cons g gs ih =>
    cases hsettle : s.settleStandard? false f g with
    | none =>
      rw [settleAll_cons_of_none hsettle]
      exact ih hf h
    | some f₁ =>
      rw [settleAll_cons_of_some hsettle]
      obtain ⟨-, -, first, hfirst, rfl⟩ := settleStandard?_false hsettle
      have hnext := hstep f g first hf h (firstCodec_of_standardFirst? hfirst)
      exact ih (hf.restoreGraph g first) hnext

/-- At the start, graphs are hidden one after the other, or none is. -/
theorem exists_start_eq_hideAll (s : Scene) :
    ∃ l, s.AtFirst l ∧ s.start = s.hideAll (Folding.unfolded s.pipeline) l := by
  have hfold : ∀ (cs : List CodecId) (f : Folding),
      ∃ l, s.AtFirst l ∧ cs.foldl s.foldAt f = s.hideAll f l := by
    intro cs
    induction cs with
    | nil => exact fun f => ⟨[], fun p hp => absurd hp List.not_mem_nil, rfl⟩
    | cons c cs ih =>
      intro f
      obtain ⟨l, hl, heq⟩ := ih (s.foldAt f c)
      rw [List.foldl_cons, heq]
      unfold foldAt
      split
      · exact ⟨l, hl, rfl⟩
      · rename_i g _
        split
        · -- the graph is hidden at this codec
          rename_i hdue
          simp only [Bool.and_eq_true, Bool.not_eq_true', beq_iff_eq] at hdue
          obtain ⟨⟨-, hopen⟩, hfirst⟩ := hdue
          refine ⟨(g, c) :: l, List.forall_mem_cons.2 ⟨?_, hl⟩, ?_⟩
          · exact firstCodec_of_standardFirst? hfirst
          · simp [toggleHidden, hopen, hideAll]
        · exact ⟨l, hl, rfl⟩
  unfold start
  simp only
  split
  · exact hfold s.dag.order _
  · exact ⟨[], fun p hp => absurd hp List.not_mem_nil, rfl⟩

end TraceFold.Scene
