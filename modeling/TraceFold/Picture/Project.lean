/-
  TraceFold.Picture.Project

  The picture of a folded scene.  Every stream that is drawn is shown by at most one
  edge: its own if both codecs are visible, or a proxy where one or both ends are hidden
  in a graph that is visible itself.  Edges that join the same two nodes are merged.
-/

import TraceFold.Folding.Basic
import TraceFold.LookupError
import TraceFold.Picture.Basic

namespace TraceFold.Scene

/-- The graph that owns a codec, if it is visible. -/
def visibleOwner? (s : Scene) (f : Folding) (c : CodecId) : Option GraphId :=
  (s.pipeline.owner? c).filter f.graphVisible

/-! ## Nodes -/

/-- The nodes that a codec brings on screen: its graph, then itself. -/
def nodesOf (s : Scene) (f : Folding) (c : CodecId) : List NodeId :=
  ((s.visibleOwner? f c).map NodeId.graph).toList
    ++ if f.codecVisible c then [.codec c] else []

/-- The visible nodes, each once, in the order of the codecs. -/
def visibleNodes (s : Scene) (f : Folding) : List NodeId :=
  (s.dag.order.flatMap (s.nodesOf f)).eraseDups

/-! ## Edges -/

/-- The only one of a graph's proxies that carries a stream and has a node at its other
    end. -/
def onlyProxy (g : GraphId) (counterpart : NodeId) (stream : StreamId) (otherEnd : Edge → NodeId)
    (proxies : List Edge) : Except LookupError Edge :=
  match proxies.filter fun e => e.stream == stream && otherEnd e == counterpart with
  | [e] => .ok e
  | found => .error (.proxyCount g counterpart stream found.length)

/-- The proxy by which a stream enters a graph from a node. -/
def entryFrom (s : Scene) (g : GraphId) (source : NodeId) (stream : StreamId) :
    Except LookupError Edge :=
  onlyProxy g source stream Edge.source (s.pipeline.incoming g)

/-- The proxy by which a stream leaves a graph to a node. -/
def exitTo (s : Scene) (g : GraphId) (target : NodeId) (stream : StreamId) :
    Except LookupError Edge :=
  onlyProxy g target stream Edge.target (s.pipeline.outgoing g)

/-- The edge that shows a stream between two codecs, if any does.  The stream's own edge is
    looked up among all edges, a proxy among those of its graph. -/
def pick (s : Scene) (f : Folding) (stream : StreamId) (source target : CodecId) :
    Except LookupError (Option Edge) :=
  let inside := (s.pipeline.owner? source).isSome
    && s.pipeline.owner? target == s.pipeline.owner? source
  -- no proxy stands for a stream inside one graph
  let entered := if inside then none else s.visibleOwner? f target
  if f.codecVisible source then
    if f.codecVisible target then .ok (s.pipeline.edge? (.stream stream))
    else
      match entered with
      | some g => (s.entryFrom g (.codec source) stream).map some
      | none => .ok none
  else
    match s.visibleOwner? f source with
    | none => .ok none
    | some left =>
      if f.codecVisible target then
        if inside then .ok none else (s.exitTo left (.codec target) stream).map some
      else
        match entered with
        | some g => (s.entryFrom g (.graph left) stream).map some
        | none => .ok none

/-- The streams that are drawn, in the order of their sources and of the outputs of each. -/
def streamsInOrder (s : Scene) : List (Stream × CodecId × CodecId) :=
  s.dag.order.flatMap fun c =>
    match s.pipeline.codec? c with
    | none => []
    | some codec => (s.pipeline.drawnOutputs codec).map fun (stream, target) => (stream, c, target)

/-- The edges that show the streams, each once. -/
def picked (s : Scene) (f : Folding) : Except LookupError (List Edge) :=
  Except.map (fun edges : List (Option Edge) => (edges.filterMap id).eraseDups)
    (s.streamsInOrder.mapM fun (x : Stream × CodecId × CodecId) => s.pick f x.1.id x.2.1 x.2.2)

/-! ## Merging -/

/-- The compressed size of the stream of an edge. -/
def sizeOf (s : Scene) (e : Edge) : Nat :=
  ((s.pipeline.stream? e.stream).map (·.compressedSize)).getD 0

/-- The share of the stream of an edge. -/
def shareOf (s : Scene) (e : Edge) : Float :=
  ((s.pipeline.stream? e.stream).map (·.share)).getD 0

/-- The label of an edge that stands for several streams. -/
def mergedLabel (s : Scene) (size : Nat) (share : Float) : String :=
  "#- (-) | Multiple edges\n" ++ toString size ++ shareText s.settings.sharePrecision share
    ++ "\n- [-]"

/-- One edge for an edge and others between the same nodes.  Sizes and shares are added
    from the first to the last. -/
def merge (s : Scene) (first : Edge) (others : List Edge) : PictureEdge :=
  let all := first :: others
  let size := all.foldl (fun sum e => sum + s.sizeOf e) 0
  let share := others.foldl (fun sum e => sum + s.shareOf e) (s.shareOf first)
  { id := first.id
    source := first.source
    target := first.target
    label := if others.isEmpty then s.label first.stream else s.mergedLabel size share
    streams := all.map Edge.stream
    compressedSize := size
    share
    marked := all.any s.marksEdge }

/-- One edge for those between two nodes, if there are any. -/
def mergeBetween? (s : Scene) (edges : List Edge) (ends : NodeId × NodeId) : Option PictureEdge :=
  match edges.filter fun e => e.ends == ends with
  | [] => none
  | first :: others => some (s.merge first others)

/-- One edge for each pair of nodes, in the order in which the pairs come up. -/
def coalesce (s : Scene) (edges : List Edge) : List PictureEdge :=
  (edges.map Edge.ends).eraseDups.filterMap (s.mergeBetween? edges)

def picture (s : Scene) (f : Folding) : Except LookupError Picture :=
  (s.picked f).map fun edges => { nodes := s.visibleNodes f, edges := s.coalesce edges }

end TraceFold.Scene
