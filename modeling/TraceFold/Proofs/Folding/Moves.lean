/-
  TraceFold.Proofs.Folding.Moves

  What a move does to the folds of several nodes.  Showing and hiding leave every
  collapse as it is, collapsing and expanding leave everything on screen that is there,
  and a move of codecs does nothing to graphs.
-/

import TraceFold.Folding.Basic

namespace TraceFold.Folding

variable {f : Folding} {m : Move} {c d : CodecId} {g h : GraphId} {cs : List CodecId}
  {gs : List GraphId}

/-! ## Folds after a move -/

theorem moveCodec_eq (f : Folding) (m : Move) (c : CodecId) :
    f.moveCodec m c = f.moveCodecs m [c] := rfl

theorem moveGraph_eq (f : Folding) (m : Move) (g : GraphId) :
    f.moveGraph m g = f.moveGraphs m [g] := rfl

/-- A move of codecs changes the fold of each of them once, and only hiding spares the root. -/
theorem codec?_moveCodecs (f : Folding) (m : Move) (cs : List CodecId) (d : CodecId) :
    (f.moveCodecs m cs).codec? d =
      if d ∈ cs ∧ ¬(d = .root ∧ m = .hide) then (f.codec? d).map (·.apply m)
      else f.codec? d := by
  induction cs generalizing f with
  | nil => simp [moveCodecs]
  | cons c cs ih =>
    have hstep : f.moveCodecs m (c :: cs) = (f.moveCodec m c).moveCodecs m cs := rfl
    rw [hstep, ih, codec?_moveCodec]
    by_cases hcd : c = d
    · subst hcd
      by_cases hroot : c = .root ∧ m = .hide
      · simp [hroot]
      · by_cases hmem : c ∈ cs <;> simp [hmem, hroot, Fold.apply_apply_self, Function.comp_def]
    · simp [hcd, Ne.symm hcd]

/-- A move of graphs changes the fold of each of them once. -/
theorem graph?_moveGraphs (f : Folding) (m : Move) (gs : List GraphId) (h : GraphId) :
    (f.moveGraphs m gs).graph? h =
      if h ∈ gs then (f.graph? h).map (·.apply m) else f.graph? h := by
  induction gs generalizing f with
  | nil => simp [moveGraphs]
  | cons g gs ih =>
    have hstep : f.moveGraphs m (g :: gs) = (f.moveGraph m g).moveGraphs m gs := rfl
    rw [hstep, ih, graph?_moveGraph]
    by_cases hgh : g = h
    · subst hgh
      by_cases hmem : g ∈ gs <;> simp [hmem, Fold.apply_apply_self, Function.comp_def]
    · simp [hgh, Ne.symm hgh]

/-- A move of codecs leaves the folds of graphs alone. -/
@[simp] theorem graphs_moveCodecs : (f.moveCodecs m cs).graphs = f.graphs := by
  induction cs generalizing f with
  | nil => rfl
  | cons c cs ih =>
    refine (ih (f := f.moveCodec m c)).trans ?_
    unfold moveCodec
    split <;> rfl

/-- A move of graphs leaves the folds of codecs alone. -/
@[simp] theorem codecs_moveGraphs : (f.moveGraphs m gs).codecs = f.codecs := by
  induction gs generalizing f with
  | nil => rfl
  | cons g gs ih => exact ih (f := f.moveGraph m g)

/-- No move adds a fold or takes one away. -/
@[simp] theorem size_codecs_moveCodecs : (f.moveCodecs m cs).codecs.size = f.codecs.size := by
  induction cs generalizing f with
  | nil => rfl
  | cons c cs ih =>
    refine (ih (f := f.moveCodec m c)).trans ?_
    unfold moveCodec
    split <;> simp

@[simp] theorem size_graphs_moveGraphs : (f.moveGraphs m gs).graphs.size = f.graphs.size := by
  induction gs generalizing f with
  | nil => rfl
  | cons g gs ih =>
    refine (ih (f := f.moveGraph m g)).trans ?_
    simp [moveGraph]

/-! ## What is on screen and what is collapsed -/

/-- A codec has a fold exactly if it has a place in the table. -/
theorem isSome_codec? : (f.codec? d).isSome ↔ d.index < f.codecs.size := by
  simp [codec?]

theorem isSome_graph? : (f.graph? h).isSome ↔ h.index < f.graphs.size := by
  simp [graph?]

/-- A fold is told by its two flags. -/
theorem fold?_eq_of_flags {a b : Option Fold} (hsome : a.isSome ↔ b.isSome)
    (hvisible : a.any (·.visible) = b.any (·.visible))
    (hcollapsed : a.any (·.collapsed) = b.any (·.collapsed)) : a = b := by
  cases a with
  | none =>
    cases b with
    | none => rfl
    | some y => simp at hsome
  | some x =>
    cases b with
    | none => simp at hsome
    | some y =>
      obtain ⟨xv, xc⟩ := x
      obtain ⟨yv, yc⟩ := y
      obtain rfl : xv = yv := hvisible
      obtain rfl : xc = yc := hcollapsed
      rfl

/-- Folds that are visible alike and collapsed alike are equal. -/
theorem folds_eq_of_flags {as bs : Array Fold} (hsize : as.size = bs.size)
    (hvisible : ∀ i : Nat, as[i]?.any (·.visible) = bs[i]?.any (·.visible))
    (hcollapsed : ∀ i : Nat, as[i]?.any (·.collapsed) = bs[i]?.any (·.collapsed)) : as = bs := by
  refine Array.ext_getElem? fun i => fold?_eq_of_flags ?_ (hvisible i) (hcollapsed i)
  rw [isSome_getElem?, isSome_getElem?, hsize]

theorem codecVisible_moveCodecs : (f.moveCodecs m cs).codecVisible d =
    if d ∈ cs ∧ ¬(d = .root ∧ m = .hide) then (f.codec? d).any fun x => (x.apply m).visible
    else f.codecVisible d := by
  unfold codecVisible
  rw [codec?_moveCodecs]
  split <;> simp [Option.any_map]

theorem codecCollapsed_moveCodecs : (f.moveCodecs m cs).codecCollapsed d =
    if d ∈ cs ∧ ¬(d = .root ∧ m = .hide) then (f.codec? d).any fun x => (x.apply m).collapsed
    else f.codecCollapsed d := by
  unfold codecCollapsed
  rw [codec?_moveCodecs]
  split <;> simp [Option.any_map]

theorem graphVisible_moveGraphs : (f.moveGraphs m gs).graphVisible h =
    if h ∈ gs then (f.graph? h).any fun x => (x.apply m).visible else f.graphVisible h := by
  unfold graphVisible
  rw [graph?_moveGraphs]
  split <;> simp [Option.any_map]

theorem graphCollapsed_moveGraphs : (f.moveGraphs m gs).graphCollapsed h =
    if h ∈ gs then (f.graph? h).any fun x => (x.apply m).collapsed else f.graphCollapsed h := by
  unfold graphCollapsed
  rw [graph?_moveGraphs]
  split <;> simp [Option.any_map]

/-! ## Showing and hiding -/

/-- What is shown is on screen, and so is what was there before. -/
@[simp] theorem codecVisible_show : (f.moveCodecs .show cs).codecVisible d ↔
    f.codecVisible d ∨ d ∈ cs ∧ d.index < f.codecs.size := by
  rw [codecVisible_moveCodecs, ← isSome_codec?]
  unfold codecVisible
  cases f.codec? d <;> by_cases hd : d ∈ cs <;> simp [hd, Fold.apply]

/-- What is hidden is off the screen, except for the root. -/
@[simp] theorem codecVisible_hide : (f.moveCodecs .hide cs).codecVisible d ↔
    f.codecVisible d ∧ (d ∈ cs → d = .root) := by
  rw [codecVisible_moveCodecs]
  unfold codecVisible
  cases f.codec? d <;> by_cases hd : d ∈ cs <;> by_cases hroot : d = .root <;>
    simp [hd, hroot, Fold.apply]

/-- Showing codecs collapses and expands none. -/
@[simp] theorem codecCollapsed_show :
    (f.moveCodecs .show cs).codecCollapsed d = f.codecCollapsed d := by
  rw [codecCollapsed_moveCodecs]
  simp [codecCollapsed, Fold.apply]

/-- Neither does hiding them. -/
@[simp] theorem codecCollapsed_hide :
    (f.moveCodecs .hide cs).codecCollapsed d = f.codecCollapsed d := by
  rw [codecCollapsed_moveCodecs]
  simp [codecCollapsed, Fold.apply]

@[simp] theorem graphVisible_show : (f.moveGraphs .show gs).graphVisible h ↔
    f.graphVisible h ∨ h ∈ gs ∧ h.index < f.graphs.size := by
  rw [graphVisible_moveGraphs, ← isSome_graph?]
  unfold graphVisible
  cases f.graph? h <;> by_cases hh : h ∈ gs <;> simp [hh, Fold.apply]

/-- A graph that is hidden is off the screen. -/
@[simp] theorem graphVisible_hide : (f.moveGraphs .hide gs).graphVisible h ↔
    f.graphVisible h ∧ h ∉ gs := by
  rw [graphVisible_moveGraphs]
  unfold graphVisible
  cases f.graph? h <;> by_cases hh : h ∈ gs <;> simp [hh, Fold.apply]

@[simp] theorem graphCollapsed_show :
    (f.moveGraphs .show gs).graphCollapsed h = f.graphCollapsed h := by
  rw [graphCollapsed_moveGraphs]
  simp [graphCollapsed, Fold.apply]

@[simp] theorem graphCollapsed_hide :
    (f.moveGraphs .hide gs).graphCollapsed h = f.graphCollapsed h := by
  rw [graphCollapsed_moveGraphs]
  simp [graphCollapsed, Fold.apply]

/-! ## Collapsing and expanding -/

/-- What is collapsed stays so, and the codecs that are moved join it. -/
@[simp] theorem codecCollapsed_collapse : (f.moveCodecs .collapse cs).codecCollapsed d ↔
    f.codecCollapsed d ∨ d ∈ cs ∧ d.index < f.codecs.size := by
  rw [codecCollapsed_moveCodecs, ← isSome_codec?]
  unfold codecCollapsed
  cases f.codec? d <;> by_cases hd : d ∈ cs <;> simp [hd, Fold.apply]

/-- What is moved is not collapsed any more. -/
@[simp] theorem codecCollapsed_expand : (f.moveCodecs .expand cs).codecCollapsed d ↔
    f.codecCollapsed d ∧ d ∉ cs := by
  rw [codecCollapsed_moveCodecs]
  unfold codecCollapsed
  cases f.codec? d <;> by_cases hd : d ∈ cs <;> simp [hd, Fold.apply]

/-- Collapsing codecs shows and hides none. -/
@[simp] theorem codecVisible_collapse :
    (f.moveCodecs .collapse cs).codecVisible d = f.codecVisible d := by
  rw [codecVisible_moveCodecs]
  simp [codecVisible, Fold.apply]

/-- Neither does expanding them. -/
@[simp] theorem codecVisible_expand :
    (f.moveCodecs .expand cs).codecVisible d = f.codecVisible d := by
  rw [codecVisible_moveCodecs]
  simp [codecVisible, Fold.apply]

@[simp] theorem graphCollapsed_collapse : (f.moveGraphs .collapse gs).graphCollapsed h ↔
    f.graphCollapsed h ∨ h ∈ gs ∧ h.index < f.graphs.size := by
  rw [graphCollapsed_moveGraphs, ← isSome_graph?]
  unfold graphCollapsed
  cases f.graph? h <;> by_cases hh : h ∈ gs <;> simp [hh, Fold.apply]

@[simp] theorem graphCollapsed_expand : (f.moveGraphs .expand gs).graphCollapsed h ↔
    f.graphCollapsed h ∧ h ∉ gs := by
  rw [graphCollapsed_moveGraphs]
  unfold graphCollapsed
  cases f.graph? h <;> by_cases hh : h ∈ gs <;> simp [hh, Fold.apply]

@[simp] theorem graphVisible_collapse :
    (f.moveGraphs .collapse gs).graphVisible h = f.graphVisible h := by
  rw [graphVisible_moveGraphs]
  simp [graphVisible, Fold.apply]

@[simp] theorem graphVisible_expand :
    (f.moveGraphs .expand gs).graphVisible h = f.graphVisible h := by
  rw [graphVisible_moveGraphs]
  simp [graphVisible, Fold.apply]

/-! ## Moves of the other kind of node -/

/-- Whatever is done to graphs, the codecs on screen stay the same. -/
@[simp] theorem codecVisible_moveGraphs :
    (f.moveGraphs m gs).codecVisible d = f.codecVisible d := by
  simp [codecVisible, codec?]

@[simp] theorem codecCollapsed_moveGraphs :
    (f.moveGraphs m gs).codecCollapsed d = f.codecCollapsed d := by
  simp [codecCollapsed, codec?]

/-- Whatever is done to codecs, the graphs on screen stay the same. -/
@[simp] theorem graphVisible_moveCodecs :
    (f.moveCodecs m cs).graphVisible h = f.graphVisible h := by
  simp [graphVisible, graph?]

@[simp] theorem graphCollapsed_moveCodecs :
    (f.moveCodecs m cs).graphCollapsed h = f.graphCollapsed h := by
  simp [graphCollapsed, graph?]

/-! ## Nothing folded -/

variable {p : Pipeline}

/-- With nothing folded, all codecs are on screen. -/
@[simp] theorem codecVisible_unfolded :
    (unfolded p).codecVisible c ↔ c.index < p.codecs.size := by
  by_cases hc : c.index < p.codecs.size <;> simp [unfolded, codecVisible, codec?, hc]

/-- With nothing folded, none of them is collapsed. -/
@[simp] theorem codecCollapsed_unfolded : (unfolded p).codecCollapsed c = false := by
  by_cases hc : c.index < p.codecs.size <;> simp [unfolded, codecCollapsed, codec?, hc]

/-- With nothing folded, all graphs are on screen. -/
@[simp] theorem graphVisible_unfolded :
    (unfolded p).graphVisible g ↔ g.index < p.graphs.size := by
  by_cases hg : g.index < p.graphs.size <;> simp [unfolded, graphVisible, graph?, hg]

/-- With nothing folded, no graph is collapsed. -/
@[simp] theorem graphCollapsed_unfolded : (unfolded p).graphCollapsed g = false := by
  by_cases hg : g.index < p.graphs.size <;> simp [unfolded, graphCollapsed, graph?, hg]

end TraceFold.Folding
