/-
  TraceFold.Scene

  A scene is everything about a picture that folding never changes: the tables of the
  pipeline, the order of its codecs, the settings, and what the marked path comes by.
-/

import TraceFold.Dag
import TraceFold.Highlight
import TraceFold.Pipeline.Check
import TraceFold.Settings.Basic

namespace TraceFold

/-- The fixed part of a picture. -/
structure Scene where
  pipeline : Pipeline
  dag : Dag
  settings : Settings
  /-- What the path of the largest streams comes by; nothing if that is not to be marked. -/
  marks : Flags
  deriving Inhabited

namespace Scene

/-- The scene of a trace, if the trace is a pipeline. -/
def build (t : Trace) (settings : Settings) : Except Fault Scene :=
  match t.fault? with
  | some fault => .error fault
  | none =>
    match Dag.ofChildren t.tables.children with
    | .error unresolved => .error (.cycle unresolved)
    | .ok dag =>
      .ok {
        pipeline := t.tables
        dag
        settings
        marks :=
          if settings.markLargestPath then t.tables.highlight t.tables.largestPath
          else t.tables.unflagged }

/-! ## Marks -/

def marksCodec (s : Scene) (c : CodecId) : Bool :=
  s.marks.codecs[c.index]?.getD false

def marksGraph (s : Scene) (g : GraphId) : Bool :=
  s.marks.graphs[g.index]?.getD false

/-- Whether an edge is among those that are flagged. -/
def marksEdge (s : Scene) (e : Edge) : Bool :=
  s.marks.edges.any fun flagged => flagged.1 == e && flagged.2

/-! ## Labels -/

/-- The label of a stream.  No edge keeps one: the edges of a stream all have the label that
    is looked up here. -/
def label (s : Scene) (id : StreamId) : String :=
  ((s.pipeline.stream? id).map (·.label s.settings.sharePrecision)).getD ""

end Scene

end TraceFold
