/-
  TraceFold.View.Project

  The view of a folded scene: its picture with the texts and flags of every node.
-/

import TraceFold.Picture.Project
import TraceFold.View.Basic

namespace TraceFold.Scene

/-- A codec with its texts and flags. -/
def codecView (s : Scene) (f : Folding) (c : Codec) : CodecView where
  id := c.id.text
  name := c.name
  kind := c.kindText
  typeId := c.typeId
  headerSize := c.headerSize
  header := c.header
  detail := c.detail
  failure := c.failure
  owner := c.owner.map GraphId.text
  inProgress := c.isInProgress
  isStore := c.isStore
  hasParams := !c.params.isEmpty
  visible := f.codecVisible c.id
  collapsed := f.codecCollapsed c.id
  collapsible := s.dag.hasChildren c.id || !c.outputs.isEmpty
  expandable := f.codecCollapsed c.id
  marked := s.marksCodec c.id

/-- A function graph with its texts and flags. -/
def graphView (s : Scene) (f : Folding) (g : Graph) : GraphView where
  id := g.id.text
  name := g.name
  kind := g.kind.name
  header := g.header
  detail := g.detail
  failure := g.failure
  codecs := g.codecs.map CodecId.text
  hasParams := !g.params.isEmpty
  visible := f.graphVisible g.id
  collapsed := f.graphCollapsed g.id
  marked := s.marksGraph g.id

/-- A node of the scene with its texts and flags. -/
def nodeView? (s : Scene) (f : Folding) : NodeId → Option NodeView
  | .codec c => (s.pipeline.codec? c).map fun c => .codec (s.codecView f c)
  | .graph g => (s.pipeline.graph? g).map fun g => .graph (s.graphView f g)

/-- An edge of the picture with its texts. -/
def edgeView (e : PictureEdge) : EdgeView where
  id := e.id.text
  source := e.source.text
  target := e.target.text
  label := e.label
  marked := e.marked
  streams := e.streams.map StreamId.text
  merged := e.isMerged

/-- The view of a picture. -/
def viewOf (s : Scene) (f : Folding) (p : Picture) : View where
  nodes := p.nodes.filterMap (s.nodeView? f)
  edges := p.edges.map edgeView

/-- What is on screen, ready to be drawn. -/
def view (s : Scene) (f : Folding) : Except LookupError View :=
  (s.picture f).map (s.viewOf f)

end TraceFold.Scene
