/-
  TraceFold.Picture.Basic

  What is on screen: the visible nodes in the order of the codecs, and one edge for each
  pair of nodes that streams run between.
-/

import TraceFold.Id.Basic

namespace TraceFold

/-- An edge of the picture, which may stand for several streams. -/
structure PictureEdge where
  /-- The first of the edges that it stands for. -/
  id : EdgeId
  source : NodeId
  target : NodeId
  label : String
  streams : List StreamId
  compressedSize : Nat
  share : Float
  /-- Whether the marked path follows one of the streams. -/
  marked : Bool
  deriving Repr, Inhabited

/-- Whether an edge stands for several streams. -/
def PictureEdge.isMerged (e : PictureEdge) : Bool :=
  1 < e.streams.length

/-- The visible nodes and the edges between them. -/
structure Picture where
  nodes : List NodeId := []
  edges : List PictureEdge := []
  deriving Repr, Inhabited

namespace Picture

/-- Whether a node is on screen. -/
def contains (p : Picture) (n : NodeId) : Bool :=
  p.nodes.contains n

/-- The edge from a node to another one. -/
def edgeBetween? (p : Picture) (source target : NodeId) : Option PictureEdge :=
  p.edges.find? fun e => e.source == source && e.target == target

end Picture

end TraceFold
