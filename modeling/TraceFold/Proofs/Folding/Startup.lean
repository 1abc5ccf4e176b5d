/-
  TraceFold.Proofs.Folding.Startup

  What is folded at the start if standard graphs are to be collapsed.  The pass comes to
  the codecs in their order and hides a graph when it comes to its first codec, unless the
  graph has gone off the screen by then.  What holds when it has come to some of the codecs
  (`Underway`) is kept with the next one, whether a graph is hidden there or not.  In the
  end the whole folding can be told from the graphs that are collapsed (`StartShape`), and
  these from the order of their first codecs.

  A graph at the top is always collapsed, but it does not always stay on screen: a later
  graph takes it off if it has a codec below its own first one (`topLevel_start_iff`).
-/

import TraceFold.Proofs.Folding.HideAll

namespace TraceFold.Scene

open Folding

variable {s : Scene} {f : Folding} {b c x first : CodecId} {g h : GraphId}
  {done rest : List CodecId}

/-! ## Collapsed graphs and what is below them -/

/-- A graph is collapsed, and a codec is its first one. -/
def CollapsedAt (s : Scene) (f : Folding) (g : GraphId) (first : CodecId) : Prop :=
  f.graphCollapsed g ∧ s.firstCodec g = .ok first

/-- A codec is the first one of a collapsed graph, or below it. -/
def Shaded (s : Scene) (f : Folding) (x : CodecId) : Prop :=
  ∃ g first, s.CollapsedAt f g first ∧ (x = first ∨ s.Below first x)

/-- A codec stands before another one in the order of a scene. -/
def Precedes (s : Scene) (u v : CodecId) : Prop :=
  s.dag.order.idxOf u < s.dag.order.idxOf v

/-- A codec is below the first codec of a collapsed graph that comes before another codec. -/
def ShadedBefore (s : Scene) (f : Folding) (c x : CodecId) : Prop :=
  ∃ g first, s.CollapsedAt f g first ∧ s.Precedes first c ∧ s.Below first x

/-- A graph owns a codec below the first codec of a collapsed graph that comes after
    another codec. -/
def OverrunAfter (s : Scene) (f : Folding) (c : CodecId) (g : GraphId) : Prop :=
  ∃ h first, s.CollapsedAt f h first ∧ s.Precedes c first ∧ s.OwnsBelow first g

/-- A graph owns a codec that is on screen. -/
def Inhabited (s : Scene) (f : Folding) (g : GraphId) : Prop :=
  ∃ x, s.pipeline.owner? x = some g ∧ f.codecVisible x

/-- A codec is the first one of one graph at most. -/
theorem Sound.first_inj (hs : s.Sound) (hg : s.firstCodec g = .ok c)
    (hh : s.firstCodec h = .ok c) : g = h :=
  Option.some.inj ((hs.owner?_first hg).symm.trans (hs.owner?_first hh))

/-! ## A graph is hidden -/

section Hide

variable (hs : s.Sound) (hf : s.Fits f) (hfirst : s.firstCodec g = .ok c)
include hs hf hfirst

theorem collapsedAt_hideGraph :
    s.CollapsedAt (s.hideGraph f g c).1 h b ↔ s.CollapsedAt f h b ∨ h = g ∧ b = c := by
  unfold CollapsedAt
  rw [graphCollapsed_hideGraph_of_first hs hf hfirst]
  refine ⟨?_, ?_⟩
  · rintro ⟨hcollapsed | rfl, hb⟩
    · exact Or.inl ⟨hcollapsed, hb⟩
    · exact Or.inr ⟨rfl, Except.ok.inj (hb.symm.trans hfirst)⟩
  · rintro (⟨hcollapsed, hb⟩ | ⟨rfl, rfl⟩)
    · exact ⟨Or.inl hcollapsed, hb⟩
    · exact ⟨Or.inr rfl, hfirst⟩

/-- Whatever is asked of the collapsed graphs is asked of one more. -/
theorem exists_collapsedAt_hideGraph (q : CodecId → Prop) :
    (∃ h b, s.CollapsedAt (s.hideGraph f g c).1 h b ∧ q b) ↔
      (∃ h b, s.CollapsedAt f h b ∧ q b) ∨ q c := by
  simp only [collapsedAt_hideGraph hs hf hfirst]
  refine ⟨?_, ?_⟩
  · rintro ⟨h, b, hat | ⟨rfl, rfl⟩, hb⟩
    · exact Or.inl ⟨h, b, hat, hb⟩
    · exact Or.inr hb
  · rintro (⟨h, b, hat, hb⟩ | hb)
    · exact ⟨h, b, Or.inl hat, hb⟩
    · exact ⟨g, c, Or.inr ⟨rfl, rfl⟩, hb⟩

theorem shaded_hideGraph :
    s.Shaded (s.hideGraph f g c).1 x ↔ s.Shaded f x ∨ x = c ∨ s.Below c x :=
  exists_collapsedAt_hideGraph hs hf hfirst fun b => x = b ∨ s.Below b x

/-- What is shaded before an earlier codec, or before the same, stays so. -/
theorem shadedBefore_hideGraph (hb : ¬s.Precedes c b) :
    s.ShadedBefore (s.hideGraph f g c).1 b x ↔ s.ShadedBefore f b x := by
  have hmore := exists_collapsedAt_hideGraph hs hf hfirst fun b' => s.Precedes b' b ∧ s.Below b' x
  exact hmore.trans (or_iff_left fun hc => hb hc.1)

theorem overrunAfter_hideGraph : s.OverrunAfter (s.hideGraph f g c).1 b h ↔
    s.OverrunAfter f b h ∨ s.Precedes b c ∧ s.OwnsBelow c h :=
  exists_collapsedAt_hideGraph hs hf hfirst fun b' => s.Precedes b b' ∧ s.OwnsBelow b' h

end Hide

/-! ## The pass on its way -/

/-- The folding when the pass has come to some of the codecs. -/
structure Underway (s : Scene) (done : List CodecId) (f : Folding) : Prop where
  fits : s.Fits f
  collapsed : ∀ g, f.graphCollapsed g → ∃ first ∈ done, s.standardFirst? g = some first
  codecCollapsed_iff : ∀ x, f.codecCollapsed x ↔ ∃ g, s.CollapsedAt f g x
  codecVisible_iff : ∀ x, f.codecVisible x ↔
    x.index < s.pipeline.codecs.size ∧ (s.Shaded f x → x = .root)
  /-- A graph that is not collapsed goes off the screen with the last of its codecs. -/
  graphVisible_iff : ∀ g, g.index < s.pipeline.graphs.size → f.graphCollapsed g = false →
    (f.graphVisible g ↔ ((∃ x, s.pipeline.owner? x = some g) → s.Inhabited f g))
  /-- A graph was collapsed if something of it was left when the pass came to it. -/
  collapsed_iff : ∀ g, ∀ first ∈ done, s.standardFirst? g = some first →
    (f.graphCollapsed g ↔ ∃ x, s.pipeline.owner? x = some g ∧ ¬s.ShadedBefore f first x)
  /-- It is on screen until the pass comes to a graph above one of its codecs. -/
  visible_iff : ∀ g first, s.CollapsedAt f g first →
    (f.graphVisible g ↔ ¬s.OverrunAfter f first g)

theorem underway_unfolded : s.Underway [] (Folding.unfolded s.pipeline) := by
  -- nothing is collapsed yet, so nothing is shaded or overrun
  have hnone : ∀ g first, ¬s.CollapsedAt (Folding.unfolded s.pipeline) g first := by
    intro g first hat
    have hcollapsed := hat.1
    rw [graphCollapsed_unfolded] at hcollapsed
    cases hcollapsed
  exact {
    fits := ⟨by simp [Folding.unfolded], by simp [Folding.unfolded]⟩
    collapsed := fun g hg => by
      rw [graphCollapsed_unfolded] at hg
      cases hg
    codecCollapsed_iff := fun x => by simp [hnone]
    codecVisible_iff := fun x => by simp [Shaded, hnone]
    graphVisible_iff := fun g hg _ => by
      rw [graphVisible_unfolded]
      refine iff_of_true hg ?_
      rintro ⟨x, hown⟩
      exact ⟨x, hown, codecVisible_unfolded.2 (codec_lt_of_owner? hown)⟩
    collapsed_iff := fun g first hfirst => absurd hfirst List.not_mem_nil
    visible_iff := fun g first hat => absurd hat (hnone g first) }

namespace Underway

variable (hu : s.Underway done f)
include hu

/-- The pass has come to the first codec of every collapsed graph. -/
theorem mem_done (hat : s.CollapsedAt f g first) : first ∈ done := by
  obtain ⟨first', hmem, hfirst'⟩ := hu.collapsed g hat.1
  obtain rfl := Except.ok.inj (hat.2.symm.trans (firstCodec_of_standardFirst? hfirst'))
  exact hmem

/-- A graph that the pass has not come to is not collapsed. -/
theorem open_of_not_mem (hfirst : s.firstCodec g = .ok first) (hnot : first ∉ done) :
    f.graphCollapsed g = false :=
  Bool.eq_false_iff.2 fun hcollapsed => hnot (hu.mem_done ⟨hcollapsed, hfirst⟩)

variable (hs : s.Sound)
include hs

/-- A codec of a graph that is not collapsed is on screen, unless it is below the first
    codec of a collapsed graph. -/
theorem codecVisible_iff_of_open (hown : s.pipeline.owner? x = some g)
    (hopen : f.graphCollapsed g = false) : f.codecVisible x ↔
      ¬∃ h b, s.CollapsedAt f h b ∧ s.Below b x := by
  rw [hu.codecVisible_iff, and_iff_right (codec_lt_of_owner? hown)]
  refine ⟨?_, ?_⟩
  · rintro hroot ⟨h, b, hat, hbelow⟩
    exact hs.ne_root_of_below hbelow (hroot ⟨h, b, hat, Or.inr hbelow⟩)
  · rintro hnot ⟨h, b, hat, rfl | hbelow⟩
    · -- the first codec of a collapsed graph is not owned by another graph
      obtain rfl := Option.some.inj ((hs.owner?_first hat.2).symm.trans hown)
      exact absurd hat.1 (Bool.eq_false_iff.1 hopen)
    · exact absurd ⟨h, b, hat, hbelow⟩ hnot

/-- When the pass comes to the first codec of a graph, the graph is on screen if one of its
    codecs is below the first codec of no collapsed graph. -/
theorem graphVisible_iff_of_next (hlater : ∀ b ∈ done, s.Precedes b c)
    (hfirst : s.firstCodec g = .ok c) (hnext : c ∉ done) : f.graphVisible g ↔
      ∃ x, s.pipeline.owner? x = some g ∧ ¬s.ShadedBefore f c x := by
  have hown := hs.owner?_first hfirst
  have hopen := hu.open_of_not_mem hfirst hnext
  rw [hu.graphVisible_iff g (hs.graph_lt hown) hopen, forall_prop_of_true ⟨c, hown⟩]
  refine exists_congr fun x => and_congr_right fun hx => ?_
  rw [hu.codecVisible_iff_of_open hs hx hopen]
  -- all collapsed graphs are earlier ones
  refine not_congr ⟨?_, ?_⟩
  · rintro ⟨h, b, hat, hbelow⟩
    exact ⟨h, b, hat, hlater b (hu.mem_done hat), hbelow⟩
  · rintro ⟨h, b, hat, -, hbelow⟩
    exact ⟨h, b, hat, hbelow⟩

/-! ### A graph is hidden at the next codec -/

omit hs in
/-- No codec is collapsed before the pass comes to it. -/
theorem codecCollapsed_next (hnext : c ∉ done) : f.codecCollapsed c = false := by
  refine Bool.eq_false_iff.2 fun hcollapsed => ?_
  obtain ⟨h, hat⟩ := (hu.codecCollapsed_iff c).1 hcollapsed
  exact hnext (hu.mem_done hat)

section Hide

variable (hnext : c ∉ done) (hfirst : s.standardFirst? g = some c)
include hnext hfirst

theorem codecVisible_hideNext : (s.hideGraph f g c).1.codecVisible x ↔
    x.index < s.pipeline.codecs.size ∧ (s.Shaded (s.hideGraph f g c).1 x → x = .root) := by
  have hat := firstCodec_of_standardFirst? hfirst
  have hopen := hu.codecCollapsed_next hnext
  rw [codecVisible_hideGraph hs, hu.codecVisible_iff, shaded_hideGraph hs hu.fits hat, and_assoc,
    ← or_imp]
  simp only [Swept, hopen, true_and]

/-- The other graphs that are not collapsed stay on screen with a codec of theirs. -/
theorem graphVisible_hideNext (hh : h.index < s.pipeline.graphs.size)
    (hopen : f.graphCollapsed h = false) (hne : h ≠ g) :
    (s.hideGraph f g c).1.graphVisible h ↔
      ((∃ x, s.pipeline.owner? x = some h) → s.Inhabited (s.hideGraph f g c).1 h) := by
  have hat := firstCodec_of_standardFirst? hfirst
  -- of a graph other than the hidden one, exactly what is below the codec is hidden
  have hinhabited : s.Inhabited (s.hideGraph f g c).1 h ↔
      ∃ x, s.pipeline.owner? x = some h ∧ f.codecVisible x ∧ ¬s.Below c x := by
    refine exists_congr fun x => and_congr_right fun hown => ?_
    rw [codecVisible_hideGraph hs]
    refine and_congr_right fun _ => ⟨fun hroot hbelow => ?_, fun hnot => ?_⟩
    · exact hs.ne_root_of_below hbelow
        (hroot (Or.inr ⟨hu.codecCollapsed_next hnext, hbelow⟩))
    · rintro (rfl | ⟨-, hbelow⟩)
      · exact absurd (Option.some.inj (hown.symm.trans (hs.owner?_first hat))) hne
      · exact absurd hbelow hnot
  rw [graphVisible_hideGraph hs, hu.graphVisible_iff h hh hopen, hinhabited]
  refine ⟨fun ⟨hleft, hkept⟩ howned => ?_, fun hleft => ⟨fun howned => ?_, fun _ hbelow => ?_⟩⟩
  · obtain ⟨x, hown, hx⟩ := hleft howned
    by_cases hbelow : s.Below c x
    · exact (hkept (hu.codecCollapsed_next hnext) ⟨x, hbelow, hown⟩).2
    · exact ⟨x, hown, hx, hbelow⟩
  · obtain ⟨x, hown, hx, -⟩ := hleft howned
    exact ⟨x, hown, hx⟩
  · obtain ⟨x, -, hown⟩ := hbelow
    exact ⟨hopen, hleft ⟨x, hown⟩⟩

variable (hlater : ∀ b ∈ done, s.Precedes b c) (hvisible : f.graphVisible g)
include hlater hvisible

/-- The graph that is hidden has a codec on screen that is not below its first one. -/
theorem kept_self : s.Kept f c g := by
  have hat := firstCodec_of_standardFirst? hfirst
  have hopen := hu.open_of_not_mem hat hnext
  obtain ⟨x, hown, hnot⟩ := (hu.graphVisible_iff_of_next hs hlater hat hnext).1 hvisible
  have hx : f.codecVisible x := by
    refine (hu.codecVisible_iff_of_open hs hown hopen).2 fun ⟨h, b, hb, hbelow⟩ => ?_
    exact hnot ⟨h, b, hb, hlater b (hu.mem_done hb), hbelow⟩
  refine ⟨hopen, ?_⟩
  by_cases hbelow : s.Below c x
  · -- then it is the first codec itself, as what hides that one hides what is below it
    refine ⟨c, hs.owner?_first hat, ?_, fun hc => hs.ne_of_below hc rfl⟩
    refine (hu.codecVisible_iff_of_open hs (hs.owner?_first hat) hopen).2 fun ⟨h, b, hb, hc⟩ => ?_
    exact hnot ⟨h, b, hb, hlater b (hu.mem_done hb), hc.trans hbelow⟩
  · exact ⟨x, hown, hx, hbelow⟩

/-- Of the graphs that the pass has come to, those are collapsed of which something was
    left.  What is hidden now comes too late to count for the earlier ones. -/
theorem collapsed_iff_hideNext (hmem : b ∈ done ++ [c]) (hb : s.standardFirst? h = some b) :
    (s.hideGraph f g c).1.graphCollapsed h ↔
      ∃ x, s.pipeline.owner? x = some h ∧ ¬s.ShadedBefore (s.hideGraph f g c).1 b x := by
  have hat := firstCodec_of_standardFirst? hfirst
  rw [graphCollapsed_hideGraph_of_first hs hu.fits hat]
  rcases List.mem_append.1 hmem with hdone | hmem
  · have hne : h ≠ g := by
      rintro rfl
      obtain rfl := Option.some.inj (hb.symm.trans hfirst)
      exact hnext hdone
    have hnot : ¬s.Precedes c b := (hlater b hdone).asymm
    simp only [shadedBefore_hideGraph hs hu.fits hat hnot]
    rw [or_iff_left hne, hu.collapsed_iff h b hdone hb]
  · obtain rfl := List.mem_singleton.1 hmem
    obtain rfl := hs.first_inj (firstCodec_of_standardFirst? hb) hat
    simp only [shadedBefore_hideGraph hs hu.fits hat (Nat.lt_irrefl _)]
    -- the graph was on screen, so something of it was left
    have hleft := (hu.graphVisible_iff_of_next hs hlater hat hnext).1 hvisible
    exact iff_of_true (Or.inr trivial) hleft

/-- A graph that is collapsed already goes off the screen with any codec of it. -/
theorem visible_iff_hideNext (hb : s.CollapsedAt (s.hideGraph f g c).1 h b) :
    (s.hideGraph f g c).1.graphVisible h ↔ ¬s.OverrunAfter (s.hideGraph f g c).1 b h := by
  have hat := firstCodec_of_standardFirst? hfirst
  have hopen := hu.codecCollapsed_next hnext
  rw [graphVisible_hideGraph hs, overrunAfter_hideGraph hs hu.fits hat, not_or]
  rcases (collapsedAt_hideGraph hs hu.fits hat).1 hb with hb | ⟨rfl, rfl⟩
  · rw [hu.visible_iff h b hb]
    refine and_congr_right fun _ => ⟨fun hkept hover => ?_, fun hnot _ hbelow => ?_⟩
    · have hnot := (hkept hopen hover.2).1
      exact absurd hb.1 (Bool.eq_false_iff.1 hnot)
    · exact absurd ⟨hlater b (hu.mem_done hb), hbelow⟩ hnot
  · -- the graph that is hidden now is kept, and all other ones come earlier
    have hkept := hu.kept_self hs hnext hfirst hlater hvisible
    refine iff_of_true ⟨hvisible, fun _ _ => hkept⟩ ⟨?_, fun hover => ?_⟩
    · rintro ⟨h', b', hb', hbefore, -⟩
      exact hbefore.asymm (hlater b' (hu.mem_done hb'))
    · exact Nat.lt_irrefl _ hover.1

theorem hideGraph : s.Underway (done ++ [c]) (s.hideGraph f g c).1 := by
  have hat := firstCodec_of_standardFirst? hfirst
  have hcollapsed : ∀ h, (s.hideGraph f g c).1.graphCollapsed h ↔ f.graphCollapsed h ∨ h = g :=
    fun h => graphCollapsed_hideGraph_of_first hs hu.fits hat
  exact {
    fits := hu.fits.hideGraph g c
    -- a collapsed graph was come to before, or is the one that is hidden now
    collapsed := fun h hh => by
      rcases (hcollapsed h).1 hh with hh | rfl
      · obtain ⟨b, hmem, hb⟩ := hu.collapsed h hh
        exact ⟨b, List.mem_append_left [c] hmem, hb⟩
      · exact ⟨c, List.mem_append_right done List.mem_cons_self, hfirst⟩
    codecCollapsed_iff := fun x => by
      rw [codecCollapsed_hideGraph hu.fits (hs.first_known hat), hu.codecCollapsed_iff]
      simp only [collapsedAt_hideGraph hs hu.fits hat, exists_or, exists_eq_left]
    codecVisible_iff := fun x => hu.codecVisible_hideNext hs hnext hfirst
    graphVisible_iff := fun h hh hopen => by
      obtain ⟨hopen, hne⟩ := not_or.1 (mt (hcollapsed h).2 (Bool.eq_false_iff.1 hopen))
      exact hu.graphVisible_hideNext hs hnext hfirst hh (Bool.eq_false_iff.2 hopen) hne
    collapsed_iff := fun h b hmem hb =>
      hu.collapsed_iff_hideNext hs hnext hfirst hlater hvisible hmem hb
    visible_iff := fun h b hb => hu.visible_iff_hideNext hs hnext hfirst hlater hvisible hb }

end Hide

/-! ### The pass goes on -/

/-- Nothing is hidden at a codec that is the first one of no graph on screen. -/
theorem skip (hlater : ∀ b ∈ done, s.Precedes b c) (hnext : c ∉ done)
    (hidle : ∀ g, s.standardFirst? g = some c → f.graphVisible g = false) :
    s.Underway (done ++ [c]) f where
  fits := hu.fits
  collapsed g hg := by
    obtain ⟨first, hmem, hfirst⟩ := hu.collapsed g hg
    exact ⟨first, List.mem_append_left [c] hmem, hfirst⟩
  codecCollapsed_iff := hu.codecCollapsed_iff
  codecVisible_iff := hu.codecVisible_iff
  graphVisible_iff := hu.graphVisible_iff
  collapsed_iff g first hmem hfirst := by
    rcases List.mem_append.1 hmem with hdone | hmem
    · exact hu.collapsed_iff g first hdone hfirst
    · -- it was hidden before, so nothing of it was left, and it is not collapsed now
      obtain rfl := List.mem_singleton.1 hmem
      have hat := firstCodec_of_standardFirst? hfirst
      rw [hu.open_of_not_mem hat hnext, ← hu.graphVisible_iff_of_next hs hlater hat hnext,
        hidle g hfirst]
  visible_iff := hu.visible_iff

end Underway

theorem foldAt_eq_hideGraph (hs : s.Sound) (hfirst : s.standardFirst? g = some c)
    (hvisible : f.graphVisible g) (hopen : f.graphCollapsed g = false) :
    s.foldAt f c = (s.hideGraph f g c).1 := by
  have hown := hs.owner?_first (firstCodec_of_standardFirst? hfirst)
  simp [foldAt, hown, hvisible, hopen, hfirst, toggleHidden]

theorem foldAt_eq_self (hidle : ∀ g, s.standardFirst? g = some c → f.graphVisible g = false) :
    s.foldAt f c = f := by
  unfold foldAt
  split
  · rfl
  · rename_i g _
    refine if_neg fun hdue => ?_
    simp only [Bool.and_eq_true, beq_iff_eq] at hdue
    exact absurd hdue.1.1 (Bool.eq_false_iff.1 (hidle g hdue.2))

theorem Underway.foldAt (hu : s.Underway done f) (hs : s.Sound)
    (hlater : ∀ b ∈ done, s.Precedes b c) (hnext : c ∉ done) :
    s.Underway (done ++ [c]) (s.foldAt f c) := by
  by_cases hdue : ∃ g, s.standardFirst? g = some c ∧ f.graphVisible g
  · obtain ⟨g, hfirst, hvisible⟩ := hdue
    have hopen := hu.open_of_not_mem (firstCodec_of_standardFirst? hfirst) hnext
    rw [foldAt_eq_hideGraph hs hfirst hvisible hopen]
    exact hu.hideGraph hs hnext hfirst hlater hvisible
  · have hidle : ∀ g, s.standardFirst? g = some c → f.graphVisible g = false := fun g hfirst =>
      Bool.eq_false_iff.2 fun hvisible => hdue ⟨g, hfirst, hvisible⟩
    rw [foldAt_eq_self hidle]
    exact hu.skip hs hlater hnext hidle

/-- The pass over what is left of the order. -/
theorem Underway.foldl (hu : s.Underway done f) (hs : s.Sound)
    (horder : s.dag.order = done ++ rest) : s.Underway s.dag.order (rest.foldl s.foldAt f) := by
  induction rest generalizing done f with
  | nil =>
    rw [List.append_nil] at horder
    exact horder ▸ hu
  | cons c rest ih =>
    have hnodup : (done ++ c :: rest).Nodup := horder ▸ hs.sorted.nodup
    have hnext : c ∉ done := fun hc =>
      (List.nodup_append.1 hnodup).2.2 c hc c List.mem_cons_self rfl
    have hlater : ∀ b ∈ done, s.Precedes b c := fun b hb => by
      rw [Precedes, horder, List.idxOf_append_of_mem hb, List.idxOf_append_of_notMem hnext]
      exact Nat.lt_add_right _ (List.idxOf_lt_length_of_mem hb)
    refine ih (hu.foldAt hs hlater hnext) ?_
    rw [horder, List.append_assoc, List.singleton_append]

theorem underway_start (hs : s.Sound) (hcollapse : s.settings.collapseStandardGraphs) :
    s.Underway s.dag.order s.start := by
  have hstart : s.start = s.dag.order.foldl s.foldAt (Folding.unfolded s.pipeline) := by
    simp [start, hcollapse]
  rw [hstart]
  exact underway_unfolded.foldl hs rfl

/-! ## The shape of the start -/

/-- A folding in which standard graphs are collapsed, and all else follows from which. -/
structure StartShape (s : Scene) (f : Folding) : Prop where
  standard_settled : ∀ g, s.Standard g → f.graphCollapsed g ∨ f.graphVisible g = false
  standard_of_collapsed : ∀ g, f.graphCollapsed g → s.Standard g
  codecCollapsed_iff : ∀ c, f.codecCollapsed c ↔ ∃ g, s.CollapsedAt f g c
  codecHidden_iff : ∀ c : CodecId, c.index < s.pipeline.codecs.size → c ≠ .root →
    (f.codecVisible c = false ↔
      ∃ g first, s.CollapsedAt f g first ∧ (c = first ∨ s.Below first c))
  root_visible : f.codecVisible .root
  graphHidden_iff : ∀ g : GraphId, g.index < s.pipeline.graphs.size →
    f.graphCollapsed g = false →
    (f.graphVisible g = false ↔ (∃ c, s.pipeline.owner? c = some g) ∧
      ∀ c, s.pipeline.owner? c = some g → f.codecVisible c = false)
  /-- Of the standard graphs, those are collapsed of which a codec is below the first codec
      of no earlier one that is. -/
  collapsed_iff : ∀ g first, s.standardFirst? g = some first →
    (f.graphCollapsed g ↔ ∃ c, s.pipeline.owner? c = some g ∧ ¬s.ShadedBefore f first c)
  /-- Of these, those are hidden that own a codec below the first codec of a later one. -/
  collapsedHidden_iff : ∀ g first, s.CollapsedAt f g first →
    (f.graphVisible g = false ↔ s.OverrunAfter f first g)

namespace Underway

variable (hu : s.Underway s.dag.order f) (hs : s.Sound)
include hu hs

/-- At the end, a standard graph that is not collapsed has gone off the screen. -/
theorem hidden_of_open (hfirst : s.standardFirst? g = some first)
    (hopen : f.graphCollapsed g = false) : f.graphVisible g = false := by
  have hown := hs.owner?_first (firstCodec_of_standardFirst? hfirst)
  have hmem : first ∈ s.dag.order := hs.mem_order.2 (codec_lt_of_owner? hown)
  refine Bool.eq_false_iff.2 fun hvisible => Bool.eq_false_iff.1 hopen ?_
  -- a codec of it on screen would have been left when the pass came to it
  obtain ⟨x, hx, hshown⟩ := (hu.graphVisible_iff g (hs.graph_lt hown) hopen).1 hvisible ⟨_, hown⟩
  refine (hu.collapsed_iff g first hmem hfirst).2 ⟨x, hx, fun ⟨h, b, hat, _, hbelow⟩ => ?_⟩
  exact (hu.codecVisible_iff_of_open hs hx hopen).1 hshown ⟨h, b, hat, hbelow⟩

theorem startShape : s.StartShape f where
  standard_settled g hstandard := by
    obtain ⟨first, hfirst⟩ := standard_iff.1 hstandard
    cases hcollapsed : f.graphCollapsed g with
    | true => exact Or.inl rfl
    | false => exact Or.inr (hu.hidden_of_open hs hfirst hcollapsed)
  standard_of_collapsed g hg := by
    obtain ⟨first, -, hfirst⟩ := hu.collapsed g hg
    exact standard_iff.2 ⟨first, hfirst⟩
  codecCollapsed_iff := hu.codecCollapsed_iff
  codecHidden_iff c hc hroot := by
    rw [← Bool.not_eq_true, hu.codecVisible_iff, and_iff_right hc, Classical.not_imp,
      and_iff_left hroot, Shaded]
  root_visible := (hu.codecVisible_iff _).2 ⟨hs.lawful.root_known, fun _ => rfl⟩
  graphHidden_iff g hg hopen := by
    rw [← Bool.not_eq_true, hu.graphVisible_iff g hg hopen, Classical.not_imp, Inhabited]
    simp only [not_exists, not_and, Bool.not_eq_true]
  collapsed_iff g first hfirst := by
    have hown := hs.owner?_first (firstCodec_of_standardFirst? hfirst)
    exact hu.collapsed_iff g first (hs.mem_order.2 (codec_lt_of_owner? hown)) hfirst
  collapsedHidden_iff g first hat := by
    rw [← Bool.not_eq_true, hu.visible_iff g first hat, not_not]

end Underway

/-- Every scene that collapses its standard graphs starts in this shape. -/
theorem startShape_of_build {t : Trace} {settings : Settings}
    (hbuild : Scene.build t settings = .ok s) (hcollapse : settings.collapseStandardGraphs) :
    s.StartShape s.start := by
  have hs := sound_of_build hbuild
  obtain ⟨-, -, rfl, -⟩ := build_eq_ok hbuild
  exact (underway_start hs hcollapse).startShape hs

/-- Of two standard graphs, the second takes the first off the screen again. -/
theorem startShape_astride : ∃ s, Scene.build astride { collapseStandardGraphs := true } = .ok s ∧
    s.StartShape s.start := by
  obtain ⟨s, hs⟩ := exists_build_astride
  exact ⟨s, hs, startShape_of_build hs rfl⟩

/-! ## Graphs at the top -/

/-- A standard graph whose first codec is below the first codec of no other one. -/
def TopLevel (s : Scene) (g : GraphId) : Prop :=
  ∃ first, s.standardFirst? g = some first ∧
    ∀ h b, s.standardFirst? h = some b → h ≠ g → ¬s.Below b first

/-- A graph at the top is collapsed at the start.  It stays on screen exactly if no graph
    that is collapsed later has a codec of it below its first one. -/
theorem topLevel_start_iff {t : Trace} {settings : Settings}
    (hbuild : Scene.build t settings = .ok s) (hcollapse : settings.collapseStandardGraphs)
    (hg : s.TopLevel g) : ∃ first, s.CollapsedAt s.start g first ∧
      (s.start.graphVisible g ↔ ¬s.OverrunAfter s.start first g) := by
  have hs := sound_of_build hbuild
  obtain ⟨-, -, rfl, -⟩ := build_eq_ok hbuild
  have hu := underway_start hs hcollapse
  obtain ⟨first, hfirst, htop⟩ := hg
  have hat := firstCodec_of_standardFirst? hfirst
  have hmem : first ∈ s.dag.order := hs.mem_order.2 (hs.first_known hat)
  have hcollapsed : s.CollapsedAt s.start g first := by
    -- its first codec is left when the pass comes to it
    refine ⟨(hu.collapsed_iff g first hmem hfirst).2 ⟨first, hs.owner?_first hat, ?_⟩, hat⟩
    rintro ⟨h, b, hb, -, hbelow⟩
    obtain ⟨b', -, hb'⟩ := hu.collapsed h hb.1
    obtain rfl := Except.ok.inj (hb.2.symm.trans (firstCodec_of_standardFirst? hb'))
    refine htop h b hb' ?_ hbelow
    rintro rfl
    exact hs.ne_of_below hbelow (Except.ok.inj (hat.symm.trans hb.2))
  exact ⟨first, hcollapsed, hu.visible_iff g first hcollapsed⟩

/-- A standard graph is at the top if no other one starts with an earlier codec. -/
theorem Sound.topLevel_of_earliest (hs : s.Sound) (hfirst : s.standardFirst? g = some first)
    (hearliest : ∀ h ∈ s.pipeline.graphIds, ∀ b, s.standardFirst? h = some b →
      ¬s.Precedes b first) : s.TopLevel g := by
  refine ⟨first, hfirst, fun h b hb _ hbelow => ?_⟩
  have hmem : h ∈ s.pipeline.graphIds := (standard_iff.2 ⟨b, hb⟩).mem_graphIds
  exact hearliest h hmem b hb (hs.sorted.before_of_transGen hbelow)

/-- The graph astride of the two branches is at the top. -/
theorem topLevel_astride
    (hbuild : Scene.build astride { collapseStandardGraphs := true } = .ok s) :
    s.TopLevel ⟨0⟩ := by
  have hrun : (Scene.build astride { collapseStandardGraphs := true }).toOption.any (fun s =>
      s.standardFirst? ⟨0⟩ == some ⟨1⟩ && s.pipeline.graphIds.all fun h =>
        (s.standardFirst? h).all fun b => s.dag.order.idxOf ⟨1⟩ ≤ s.dag.order.idxOf b) = true := by
    decide +kernel
  obtain ⟨s', hs', hq⟩ := exists_of_any_toOption hrun
  obtain rfl := Except.ok.inj (hbuild.symm.trans hs')
  simp only [Bool.and_eq_true, beq_iff_eq, List.all_eq_true, Option.all_eq_true,
    decide_eq_true_eq] at hq
  exact (sound_of_build hbuild).topLevel_of_earliest hq.1 fun h hmem b hb =>
    Nat.not_lt.2 (hq.2 h hmem b hb)

theorem topLevel_start_astride : ∃ s first,
    Scene.build astride { collapseStandardGraphs := true } = .ok s ∧ s.TopLevel ⟨0⟩ ∧
      s.CollapsedAt s.start ⟨0⟩ first ∧
      (s.start.graphVisible ⟨0⟩ ↔ ¬s.OverrunAfter s.start first ⟨0⟩) := by
  obtain ⟨s, hs⟩ := exists_build_astride
  have htop := topLevel_astride hs
  obtain ⟨first, hat, hvisible⟩ := topLevel_start_iff hs rfl htop
  exact ⟨s, first, hs, htop, hat, hvisible⟩

/-- It does not stay on screen: the other graph takes it off with its codec on the longer
    branch, and its codec on the shorter one with it. -/
theorem exists_topLevel_hidden : ∃ s,
    Scene.build astride { collapseStandardGraphs := true } = .ok s ∧ s.TopLevel ⟨0⟩ ∧
      s.start.graphCollapsed ⟨0⟩ ∧ s.start.graphVisible ⟨0⟩ = false ∧
      s.pipeline.owner? ⟨1⟩ = some ⟨0⟩ ∧ s.start.codecVisible ⟨1⟩ = false := by
  have hrun : (Scene.build astride { collapseStandardGraphs := true }).toOption.any (fun s =>
      s.start.graphCollapsed ⟨0⟩ && !s.start.graphVisible ⟨0⟩ &&
        s.pipeline.owner? ⟨1⟩ == some ⟨0⟩ && !s.start.codecVisible ⟨1⟩) = true := by
    decide +kernel
  obtain ⟨s, hs, hq⟩ := exists_of_any_toOption hrun
  simp only [Bool.and_eq_true, Bool.not_eq_true', beq_iff_eq, and_assoc] at hq
  exact ⟨s, hs, topLevel_astride hs, hq⟩

end TraceFold.Scene
