/-
  TraceFold.Folding.Toggle

  The ways in which a scene is folded and unfolded.  Each gives the new folds and the
  nodes to look at.  They are total: what an identifier has to satisfy is asked by the
  actions.
-/

import TraceFold.Folding.Descent

namespace TraceFold.Scene

/-- The owners of codecs, each once, in the order of the codecs. -/
def ownersOf (s : Scene) (cs : List CodecId) : List GraphId :=
  (cs.filterMap s.pipeline.owner?).eraseDups

/-- Whether every codec that a graph lists is hidden. -/
def allHidden (s : Scene) (f : Folding) (g : GraphId) : Bool :=
  (s.pipeline.members g).all fun c => !f.codecVisible c

/-! ## Below a codec -/

/-- The node that stands for a codec: its graph if that is collapsed, else the codec. -/
def standIn (s : Scene) (f : Folding) (c : CodecId) : NodeId :=
  match s.pipeline.owner? c with
  | some g => if f.graphCollapsed g then .graph g else .codec c
  | none => .codec c

/-- Shows what is below a codec, down to the codecs that are collapsed.  Graphs of what
    is met are shown; what is inside a collapsed graph stays hidden. -/
def expandBelow (s : Scene) (f : Folding) (c : CodecId) : Folding × List NodeId :=
  let f := f.moveCodec .expand c
  let below := s.descendants f .stopAtCollapsed c
  -- no move below changes a collapse, so the stand-ins can be found before them
  let nodes := below.map (s.standIn f)
  let f := f.moveGraphs .show (s.ownersOf below)
  let f := f.moveCodecs .show (nodes.filterMap NodeId.codec?)
  (f, nodes.eraseDups ++ [.codec c])

/-- Hides everything below a codec.  A graph of what is hidden is hidden if it is
    collapsed, or if none of its codecs is left. -/
def collapseBelow (s : Scene) (f : Folding) (c : CodecId) : Folding × List NodeId :=
  let f := f.moveCodec .collapse c
  let below := s.descendants f .unbounded c
  let owners := s.ownersOf below
  let f := f.moveCodecs .hide below
  -- whether a graph is empty is asked once everything below is hidden
  let emptied := owners.filter fun g => f.graphCollapsed g || s.allHidden f g
  (f.moveGraphs .hide emptied, [.codec c])

/-- Collapses or expands what is below a codec. -/
def toggleBelow (s : Scene) (f : Folding) (c : CodecId) : Folding × List NodeId :=
  if f.codecCollapsed c then s.expandBelow f c else s.collapseBelow f c

/-! ## One level -/

/-- Whether a child belongs to a graph that a codec does not belong to. -/
def isForeign (s : Scene) (c child : CodecId) : Bool :=
  (s.pipeline.owner? child).isSome && s.pipeline.owner? child != s.pipeline.owner? c

/-- Shows the children of a codec and nothing below them.  Children with children are
    collapsed; a child of another graph is not shown itself, but its graph is, collapsed. -/
def expandLevel (s : Scene) (f : Folding) (c : CodecId) : Folding × List NodeId :=
  let children := s.dag.childrenOf c
  let foreign := s.ownersOf (children.filter (s.isForeign c))
  let near := children.filter fun child => !s.isForeign c child
  let f := f.moveCodec .expand c
  let f := (f.moveGraphs .show foreign).moveGraphs .collapse foreign
  -- foreign children are not shown, but collapsed like the others
  let f := f.moveCodecs .show near
  let f := f.moveCodecs .collapse (children.filter s.dag.hasChildren)
  let nodes := children.map fun child =>
    match s.pipeline.owner? child with
    | some g => if s.isForeign c child then .graph g else .codec child
    | none => .codec child
  (f, .codec c :: nodes.eraseDups)

/-! ## Graphs -/

/-- Folds a graph into one node. -/
def collapseGraph (s : Scene) (f : Folding) (g : GraphId) : Folding × List NodeId :=
  ((f.moveGraph .collapse g).moveCodecs .hide (s.pipeline.members g), [.graph g])

/-- Shows the first codec of a graph again, and what is below it in the same graph. -/
def expandGraph (s : Scene) (f : Folding) (g : GraphId) (first : CodecId) :
    Folding × List NodeId :=
  let f := f.moveGraph .expand g
  -- a collapsed first codec hides the rest of the graph
  let inside :=
    if f.codecCollapsed first then [] else s.descendants f (.within g) first
  (f.moveCodecs .show (first :: inside), (first :: inside).map .codec)

/-- Hides a graph with everything below its first codec: what is below is collapsed, and
    the graph stands in for all of it. -/
def hideGraph (s : Scene) (f : Folding) (g : GraphId) (first : CodecId) :
    Folding × List NodeId :=
  let f := if f.codecCollapsed first then f else (s.collapseBelow f first).1
  ((f.moveGraph .collapse g).moveCodec .hide first, [.graph g])

/-- Shows a graph with what is below its first codec. -/
def restoreGraph (s : Scene) (f : Folding) (g : GraphId) (first : CodecId) :
    Folding × List NodeId :=
  let f := (f.moveGraph .expand g).moveGraph .show g
  let (f, nodes) :=
    if f.codecCollapsed first then s.expandBelow f first
    else
      let inside := s.descendants f (.within g) first
      (f.moveCodecs .show inside, inside.map .codec)
  -- expanding names the first codec already, the walk inside the graph does not
  let nodes := if nodes.contains (.codec first) then nodes else nodes ++ [.codec first]
  (f.moveCodec .show first, nodes ++ [.graph g])

/-- Hides a graph or shows it again. -/
def toggleHidden (s : Scene) (f : Folding) (g : GraphId) (first : CodecId) :
    Folding × List NodeId :=
  if f.graphCollapsed g then s.restoreGraph f g first else s.hideGraph f g first

/-! ## All standard graphs -/

/-- The first codec of a graph of the standard kind. -/
def standardFirst? (s : Scene) (g : GraphId) : Option CodecId := do
  let graph ← s.pipeline.graph? g
  if graph.isStandard then graph.first? else none

/-- Hides a standard graph, or shows it again, unless it is hidden or already as wanted.
    Gives nothing if nothing is to be done. -/
def settleStandard? (s : Scene) (collapse : Bool) (f : Folding) (g : GraphId) : Option Folding :=
  if f.graphVisible g && f.graphCollapsed g != collapse then
    (s.standardFirst? g).map fun first => (s.toggleHidden f g first).1
  else none

/-- Settles graphs one after the other; also gives those for which something was done. -/
def settleAll (s : Scene) (collapse : Bool) : Folding → List GraphId → Folding × List GraphId
  | f, [] => (f, [])
  | f, g :: rest =>
    match s.settleStandard? collapse f g with
    | none => s.settleAll collapse f rest
    | some f' =>
      let (f, done) := s.settleAll collapse f' rest
      (f, g :: done)

/-- Hides all standard graphs, or shows them again, in ascending order. -/
def toggleStandard (s : Scene) (collapse : Bool) (f : Folding) : Folding × List GraphId :=
  s.settleAll collapse f s.pipeline.graphIds

/-! ## The start -/

/-- Hides a graph at the first of its codecs, unless an earlier one has hidden it. -/
def foldAt (s : Scene) (f : Folding) (c : CodecId) : Folding :=
  match s.pipeline.owner? c with
  | none => f
  | some g =>
    if f.graphVisible g && !f.graphCollapsed g && s.standardFirst? g == some c then
      (s.toggleHidden f g c).1
    else f

/-- The folds that a scene starts with. -/
def start (s : Scene) : Folding :=
  let f := Folding.unfolded s.pipeline
  if s.settings.collapseStandardGraphs then s.dag.order.foldl s.foldAt f else f

end TraceFold.Scene
