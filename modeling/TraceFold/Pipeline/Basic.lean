/-
  TraceFold.Pipeline.Basic

  The tables of a pipeline, and the ones that a trace gives.  Owners and ends of
  streams are filled in, the root loses its input, and every codec loses the outputs
  that nothing consumes.
-/

import TraceFold.Pipeline.Codec
import TraceFold.Pipeline.Stream
import TraceFold.Pipeline.Graph
import TraceFold.Trace.Ends

namespace TraceFold

/-- The tables of a pipeline, by identifier. -/
structure Pipeline where
  codecs : Array Codec := #[]
  streams : Array Stream := #[]
  graphs : Array Graph := #[]
  deriving Inhabited

namespace Pipeline

def codec? (p : Pipeline) (c : CodecId) : Option Codec :=
  p.codecs[c.index]?

def stream? (p : Pipeline) (s : StreamId) : Option Stream :=
  p.streams[s.index]?

def graph? (p : Pipeline) (g : GraphId) : Option Graph :=
  p.graphs[g.index]?

/-- The identifiers of all codecs, in ascending order. -/
def codecIds (p : Pipeline) : List CodecId :=
  (List.range p.codecs.size).map CodecId.mk

/-- The identifiers of all graphs, in ascending order. -/
def graphIds (p : Pipeline) : List GraphId :=
  (List.range p.graphs.size).map GraphId.mk

def owner? (p : Pipeline) (c : CodecId) : Option GraphId :=
  (p.codec? c).bind (·.owner)

/-- The codecs that a graph lists. -/
def members (p : Pipeline) (g : GraphId) : List CodecId :=
  ((p.graph? g).map (·.codecs)).getD []

/-- The outputs of a codec that are drawn, with their targets, in the codec's order. -/
def drawnOutputs (p : Pipeline) (c : Codec) : List (Stream × CodecId) :=
  c.outputs.filterMap fun s => do
    let stream ← p.stream? s
    let (_, target) ← stream.ends
    pure (stream, target)

/-- The streams that are drawn, with their sources and targets, in ascending order. -/
def drawnStreams (p : Pipeline) : List (Stream × CodecId × CodecId) :=
  p.streams.toList.filterMap fun s => s.ends.map (s, ·)

end Pipeline

/-! ## The tables of a trace -/

/-- An empty text says as much as none. -/
def nonEmpty (text : Option String) : Option String :=
  text.filter (· ≠ "")

namespace Trace

/-- Whether, and why, a stream is not drawn. -/
def exclusionOf (t : Trace) (s : StreamId) : Option Exclusion :=
  if s = .rootInput then some .rootInput
  else if t.isTerminal s then some .terminal
  else none

def codecOf (t : Trace) (c : CodecId) (r : CodecRecord) : Codec where
  id := c
  name := r.name
  isStandard := r.isStandard
  typeId := r.typeId
  headerSize := r.headerSize
  failure := nonEmpty r.failure
  params := r.params
  inputs := if c = .root then [] else r.inputs
  outputs := r.outputs.filter fun s => !t.isTerminal s
  owner := t.ownerOf c

def streamOf (t : Trace) (s : StreamId) (r : StreamRecord) : Stream where
  id := s
  source := t.sourceOf s
  target := t.targetOf s
  type := .ofTag r.typeTag
  compressedSize := r.compressedSize
  elementCount := r.elementCount
  elementWidth := r.elementWidth
  share := r.share
  outputIndex := r.outputIndex
  exclusion := t.exclusionOf s

def graphOf (g : GraphId) (r : GraphRecord) : Graph where
  id := g
  kind := .ofTag r.kind
  name := r.name
  failure := nonEmpty r.failure
  params := r.params
  codecs := r.codecs

/-- The tables that a trace gives, sound or not. -/
def tables (t : Trace) : Pipeline where
  codecs := (t.codecs.mapIdx fun c r => t.codecOf ⟨c⟩ r).toArray
  streams := (t.streams.mapIdx fun s r => t.streamOf ⟨s⟩ r).toArray
  graphs := (t.graphs.mapIdx fun g r => graphOf ⟨g⟩ r).toArray

theorem codec?_tables (t : Trace) (c : CodecId) :
    t.tables.codec? c = t.codecs[c.index]?.map (t.codecOf c) := by
  simp [tables, Pipeline.codec?]

theorem stream?_tables (t : Trace) (s : StreamId) :
    t.tables.stream? s = t.streams[s.index]?.map (t.streamOf s) := by
  simp [tables, Pipeline.stream?]

theorem graph?_tables (t : Trace) (g : GraphId) :
    t.tables.graph? g = t.graphs[g.index]?.map (graphOf g) := by
  simp [tables, Pipeline.graph?]

end Trace

end TraceFold
