/-
  TraceFold.Highlight

  The flags of the path of the largest streams.  One pass over the path sets them: each
  step flags its codec, the graph that owns this codec, and all edges of the stream that
  is followed, whichever nodes they join.
-/

import TraceFold.Edge
import TraceFold.LargestPath

namespace TraceFold

/-- A flag for every codec, every graph, and every edge that a picture can be drawn with. -/
@[ext]
structure Flags where
  codecs : Array Bool
  graphs : Array Bool
  edges : List (Edge × Bool)
  deriving Inhabited

namespace Pipeline

/-- No flags. -/
def unflagged (p : Pipeline) : Flags where
  codecs := Array.replicate p.codecs.size false
  graphs := Array.replicate p.graphs.size false
  edges := p.edges.map fun e => (e, false)

/-- Flags what the path comes by in one step. -/
def flagStep (p : Pipeline) (flags : Flags) (step : PathStep) : Flags where
  codecs := flags.codecs.setIfInBounds step.codec.index true
  graphs :=
    match p.owner? step.codec with
    | some g => flags.graphs.setIfInBounds g.index true
    | none => flags.graphs
  edges :=
    match step.via with
    | some i => flags.edges.map fun (e, flag) => (e, flag || e.stream == i)
    | none => flags.edges

/-- The flags that a pass over a path sets. -/
def highlight (p : Pipeline) (path : List PathStep) : Flags :=
  path.foldl p.flagStep p.unflagged

end Pipeline

end TraceFold
