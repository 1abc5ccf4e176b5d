/-
  TraceFold.Trace.Ends

  What the lists of a trace say about one entity: the graph that owns a codec, the
  codec that produces a stream and the one that consumes it.  Where several lists name
  it, the first one counts.
-/

import TraceFold.Trace.Basic

namespace TraceFold.Trace

/-- The first graph that lists a codec. -/
def ownerOf (t : Trace) (c : CodecId) : Option GraphId :=
  (t.graphs.findIdx? fun g => g.codecs.contains c).map GraphId.mk

/-- The first codec that lists a stream as an output. -/
def sourceOf (t : Trace) (s : StreamId) : Option CodecId :=
  (t.codecs.findIdx? fun c => c.outputs.contains s).map CodecId.mk

/-- The first codec that lists a stream as an input. -/
def targetOf (t : Trace) (s : StreamId) : Option CodecId :=
  (t.codecs.findIdx? fun c => c.inputs.contains s).map CodecId.mk

/-- Whether nothing consumes a stream.  The root input is never counted among these. -/
def isTerminal (t : Trace) (s : StreamId) : Bool :=
  s != .rootInput && (t.targetOf s).isNone

/-- The identifiers of all streams, in ascending order. -/
def streamIds (t : Trace) : List StreamId :=
  (List.range t.streams.length).map StreamId.mk

/-- The streams that a codec produces and nothing consumes, in ascending order. -/
def terminalsOf (t : Trace) (c : CodecRecord) : List StreamId :=
  t.streamIds.filter fun s => c.outputs.contains s && t.isTerminal s

/-- A codec that no graph lists has no owner. -/
theorem ownerOf_eq_none_iff (t : Trace) (c : CodecId) :
    t.ownerOf c = none ↔ ∀ g ∈ t.graphs, c ∉ g.codecs := by
  simp [ownerOf, List.findIdx?_eq_none_iff]

/-- A stream that no codec has as an output has no source. -/
theorem sourceOf_eq_none_iff (t : Trace) (s : StreamId) :
    t.sourceOf s = none ↔ ∀ c ∈ t.codecs, s ∉ c.outputs := by
  simp [sourceOf, List.findIdx?_eq_none_iff]

theorem targetOf_eq_none_iff (t : Trace) (s : StreamId) :
    t.targetOf s = none ↔ ∀ c ∈ t.codecs, s ∉ c.inputs := by
  simp [targetOf, List.findIdx?_eq_none_iff]

end TraceFold.Trace
