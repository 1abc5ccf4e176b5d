/-
  TraceFold.Edge

  The edges that a picture can be drawn with.  Every stream that is drawn has an edge
  between its two codecs.  A stream that enters or leaves a function graph has proxies
  as well, which end at the graph instead of the codec inside it.
-/

import TraceFold.Pipeline.Basic

namespace TraceFold

/-- An edge that a picture can be drawn with.  It keeps neither a label nor a mark: the label
    is looked up by its stream (`Scene.label`), and the mark in a table that has one for each
    edge (`Scene.marksEdge`). -/
structure Edge where
  id : EdgeId
  source : NodeId
  target : NodeId
  deriving DecidableEq, Repr, Inhabited

namespace Edge

/-- The stream that an edge draws or stands in for. -/
def stream (e : Edge) : StreamId :=
  e.id.carried

/-- The nodes that an edge joins. -/
def ends (e : Edge) : NodeId × NodeId :=
  (e.source, e.target)

/-- The edge of a stream between its two codecs. -/
def between (s : StreamId) (source target : CodecId) : Edge :=
  ⟨.stream s, .codec source, .codec target⟩

/-- The proxy for a stream between two nodes. -/
def proxy (s : StreamId) (source target : NodeId) : Edge :=
  ⟨.proxy source s target, source, target⟩

end Edge

namespace Pipeline

/-- The edges between codecs, in the order of their streams. -/
def codecEdges (p : Pipeline) : List Edge :=
  p.drawnStreams.map fun (s, source, target) => .between s.id source target

/-- The proxies of a stream with these ends: from graph to graph if both ends are owned,
    then from the source's graph to the target, then from the source to the target's
    graph.  A stream inside one graph has none. -/
def proxiesOf (p : Pipeline) (s : StreamId) (source target : CodecId) : List Edge :=
  match p.owner? source, p.owner? target with
  | some from_, some to_ =>
    if from_ = to_ then []
    else [.proxy s (.graph from_) (.graph to_), .proxy s (.graph from_) (.codec target),
      .proxy s (.codec source) (.graph to_)]
  | some from_, none => [.proxy s (.graph from_) (.codec target)]
  | none, some to_ => [.proxy s (.codec source) (.graph to_)]
  | none, none => []

/-- All edges: those between codecs, then the proxies, both in the order of the streams. -/
def edges (p : Pipeline) : List Edge :=
  p.codecEdges
    ++ p.drawnStreams.flatMap fun (s, source, target) => p.proxiesOf s.id source target

/-- The edge with an identifier. -/
def edge? (p : Pipeline) (id : EdgeId) : Option Edge :=
  p.edges.find? (·.id == id)

/-! ## The streams across a graph's boundary -/

/-- The proxies by which a stream enters a graph. -/
def entries (p : Pipeline) (g : GraphId) (s : StreamId) (source target : CodecId) : List Edge :=
  if p.owner? target ≠ some g ∨ p.owner? source = some g then []
  else
    ((p.owner? source).map fun other => Edge.proxy s (.graph other) (.graph g)).toList
      ++ [.proxy s (.codec source) (.graph g)]

/-- The proxies by which a stream leaves a graph. -/
def exits (p : Pipeline) (g : GraphId) (s : StreamId) (source target : CodecId) : List Edge :=
  if p.owner? source ≠ some g ∨ p.owner? target = some g then []
  else
    ((p.owner? target).map fun other => Edge.proxy s (.graph g) (.graph other)).toList
      ++ [.proxy s (.graph g) (.codec target)]

/-- The proxies that end at a graph, in the order of their streams. -/
def incoming (p : Pipeline) (g : GraphId) : List Edge :=
  p.drawnStreams.flatMap fun (s, source, target) => p.entries g s.id source target

/-- The proxies that start at a graph, in the order of their streams. -/
def outgoing (p : Pipeline) (g : GraphId) : List Edge :=
  p.drawnStreams.flatMap fun (s, source, target) => p.exits g s.id source target

end Pipeline

end TraceFold
