/-
  TraceFold.Pipeline.Warning

  What is odd about a trace without being wrong: graphs of an unknown kind, and hints
  about the ends of a stream that its codecs contradict.
-/

import TraceFold.Pipeline.Graph
import TraceFold.Trace.Ends

namespace TraceFold

/-- Which end of a stream. -/
inductive StreamEnd where
  | source
  | target
  deriving DecidableEq, Repr

/-- Something odd about a trace. -/
inductive Warning where
  | unknownKind (graph : GraphId) (tag : String)
  | wrongHint (stream : StreamId) (side : StreamEnd) (hint : CodecId) (found : Option CodecId)
  deriving DecidableEq, Repr

def Warning.message : Warning → String
  | .unknownKind _ _ => "unrecognised graph type, treating as non-standard"
  | .wrongHint _ .source _ _ => "serialized source codec disagrees with codec output lists"
  | .wrongHint _ .target _ _ => "serialized target codec disagrees with codec input lists"

namespace Trace

/-- The warning about a hint that does not agree with what was found. -/
def hintWarning (s : StreamId) (side : StreamEnd) (hint found : Option CodecId) : List Warning :=
  match hint with
  | none => []
  | some c => if found = some c then [] else [.wrongHint s side c found]

/-- The warning about a graph of an unknown kind. -/
def kindWarning (g : GraphId) (r : GraphRecord) : List Warning :=
  if (GraphKind.ofTag? r.kind).isSome then [] else [.unknownKind g r.kind]

/-- All warnings: the graphs first, then the streams, each with its source before its
    target. -/
def warnings (t : Trace) : List Warning :=
  (t.graphs.mapIdx fun g r => kindWarning ⟨g⟩ r).flatten
    ++ (t.streams.mapIdx fun s r =>
      hintWarning ⟨s⟩ .source r.sourceHint (t.sourceOf ⟨s⟩)
        ++ hintWarning ⟨s⟩ .target r.targetHint (t.targetOf ⟨s⟩)).flatten

end Trace

end TraceFold
