/-
  TraceFold.Action.Basic

  What a user can do to a scene.  An action is checked against the scene first; only
  then does it change a fold.
-/

import TraceFold.Folding.Toggle
import TraceFold.LookupError

namespace TraceFold

/-- Something that a user does. -/
inductive Action where
  /-- Collapse or expand a graph, or what is below a codec. -/
  | toggle (node : NodeId)
  /-- Show the children of a codec and nothing below them. -/
  | expand (codec : CodecId)
  /-- Hide a graph with what is below it, or show it again. -/
  | hide (graph : GraphId)
  /-- Hide all standard graphs, or show them again. -/
  | standard (collapse : Bool)
  deriving DecidableEq, Repr

namespace Scene

/-- A codec of the scene. -/
def knownCodec (s : Scene) (c : CodecId) : Except LookupError CodecId :=
  if c.index < s.pipeline.codecs.size then .ok c else .error (.unknownCodec c)

/-- A graph of the scene. -/
def knownGraph (s : Scene) (g : GraphId) : Except LookupError Graph :=
  match s.pipeline.graph? g with
  | some graph => .ok graph
  | none => .error (.unknownGraph g)

/-- The first codec of a graph of the scene. -/
def firstCodec (s : Scene) (g : GraphId) : Except LookupError CodecId :=
  match s.knownGraph g with
  | .error e => .error e
  | .ok graph =>
    match graph.first? with
    | some first => .ok first
    | none => .error (.emptyGraph g)

/-- Collapses or expands a graph.  An empty graph can be collapsed, but not expanded. -/
def toggleGraph (s : Scene) (f : Folding) (g : GraphId) :
    Except LookupError (Folding × List NodeId) := do
  let _ ← s.knownGraph g
  if f.graphCollapsed g then
    let first ← s.firstCodec g
    pure (s.expandGraph f g first)
  else pure (s.collapseGraph f g)

/-- Does an action: gives the new folds and the nodes to look at. -/
def apply (s : Scene) (f : Folding) : Action → Except LookupError (Folding × List NodeId)
  | .toggle (.codec c) => (s.knownCodec c).map fun c => s.toggleBelow f c
  | .toggle (.graph g) => s.toggleGraph f g
  | .expand c => (s.knownCodec c).map fun c => s.expandLevel f c
  | .hide g => (s.firstCodec g).map fun first => s.toggleHidden f g first
  | .standard collapse =>
    let (f, done) := s.toggleStandard collapse f
    .ok (f, done.map .graph)

end Scene

end TraceFold
