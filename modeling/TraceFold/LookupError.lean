/-
  TraceFold.LookupError

  Why an action cannot be done, or a picture not be drawn.  Nothing is changed by what
  ends in one of these.
-/

import TraceFold.Id.Text

namespace TraceFold

/-- Why a scene cannot give what is asked of it. -/
inductive LookupError where
  /-- A graph does not have exactly one proxy for a stream to or from a node. -/
  | proxyCount (group : GraphId) (counterpart : NodeId) (stream : StreamId) (found : Nat)
  | unknownCodec (codec : CodecId)
  | unknownGraph (graph : GraphId)
  /-- A graph that lists no codec has no first one. -/
  | emptyGraph (graph : GraphId)
  deriving DecidableEq, Repr

namespace LookupError

def code : LookupError → String
  | .proxyCount _ _ _ _ => "PROXY_EDGE_COUNT"
  | .unknownCodec _ => "UNKNOWN_CODEC"
  | .unknownGraph _ => "UNKNOWN_GRAPH"
  | .emptyGraph _ => "EMPTY_GRAPH"

def message : LookupError → String
  | .proxyCount group counterpart stream found =>
    "Expected exactly one proxy edge on " ++ group.text ++ " for " ++ stream.text ++ " with "
      ++ counterpart.text ++ ", found " ++ toString found
  | .unknownCodec codec => "Unknown codec " ++ codec.text
  | .unknownGraph graph => "Unknown graph " ++ graph.text
  | .emptyGraph graph => "Graph " ++ graph.text ++ " owns no codecs"

end LookupError

end TraceFold
