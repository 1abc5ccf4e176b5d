/-
  TraceFold.Folding.Basic

  The folds of all nodes of a scene.  The root codec is never hidden: a move that would
  hide it does nothing.
-/

import TraceFold.Fold
import TraceFold.Scene

namespace TraceFold

/-- The fold of every codec and every graph, by identifier. -/
structure Folding where
  codecs : Array Fold
  graphs : Array Fold
  deriving DecidableEq, Repr, Inhabited

namespace Folding

def codec? (f : Folding) (c : CodecId) : Option Fold :=
  f.codecs[c.index]?

def graph? (f : Folding) (g : GraphId) : Option Fold :=
  f.graphs[g.index]?

def node? (f : Folding) : NodeId → Option Fold
  | .codec c => f.codec? c
  | .graph g => f.graph? g

def codecVisible (f : Folding) (c : CodecId) : Bool :=
  (f.codec? c).any (·.visible)

def codecCollapsed (f : Folding) (c : CodecId) : Bool :=
  (f.codec? c).any (·.collapsed)

def graphVisible (f : Folding) (g : GraphId) : Bool :=
  (f.graph? g).any (·.visible)

def graphCollapsed (f : Folding) (g : GraphId) : Bool :=
  (f.graph? g).any (·.collapsed)

def nodeVisible (f : Folding) (n : NodeId) : Bool :=
  (f.node? n).any (·.visible)

def nodeCollapsed (f : Folding) (n : NodeId) : Bool :=
  (f.node? n).any (·.collapsed)

/-- Moves a codec.  Hiding does nothing to the root. -/
def moveCodec (f : Folding) (m : Move) (c : CodecId) : Folding :=
  if c = .root ∧ m = .hide then f
  else { f with codecs := f.codecs.modify c.index (·.apply m) }

def moveGraph (f : Folding) (m : Move) (g : GraphId) : Folding :=
  { f with graphs := f.graphs.modify g.index (·.apply m) }

def moveCodecs (f : Folding) (m : Move) (cs : List CodecId) : Folding :=
  cs.foldl (·.moveCodec m ·) f

def moveGraphs (f : Folding) (m : Move) (gs : List GraphId) : Folding :=
  gs.foldl (·.moveGraph m ·) f

/-- Everything shown and nothing collapsed. -/
def unfolded (p : Pipeline) : Folding where
  codecs := Array.replicate p.codecs.size {}
  graphs := Array.replicate p.graphs.size {}

/-! ## One move -/

/-- A move changes the fold of its codec only, and hiding spares the root. -/
theorem codec?_moveCodec (f : Folding) (m : Move) (c d : CodecId) :
    (f.moveCodec m c).codec? d =
      if c = d ∧ ¬(c = .root ∧ m = .hide) then (f.codec? d).map (·.apply m) else f.codec? d := by
  unfold moveCodec
  by_cases hroot : c = .root ∧ m = .hide
  · simp [hroot]
  · by_cases hcd : c = d
    · subst hcd
      simp [hroot, codec?, Array.getElem?_modify]
    · have : c.index ≠ d.index := fun h => hcd (by cases c; cases d; simp_all)
      simp [hroot, hcd, codec?, Array.getElem?_modify, this]

theorem graph?_moveCodec (f : Folding) (m : Move) (c : CodecId) (g : GraphId) :
    (f.moveCodec m c).graph? g = f.graph? g := by
  unfold moveCodec
  split <;> rfl

/-- A move changes the fold of its graph only. -/
theorem graph?_moveGraph (f : Folding) (m : Move) (g h : GraphId) :
    (f.moveGraph m g).graph? h = if g = h then (f.graph? h).map (·.apply m) else f.graph? h := by
  by_cases hgh : g = h
  · subst hgh
    simp [moveGraph, graph?, Array.getElem?_modify]
  · have : g.index ≠ h.index := fun e => hgh (by cases g; cases h; simp_all)
    simp [moveGraph, hgh, graph?, Array.getElem?_modify, this]

theorem codec?_moveGraph (f : Folding) (m : Move) (g : GraphId) (c : CodecId) :
    (f.moveGraph m g).codec? c = f.codec? c := rfl

end Folding

end TraceFold
