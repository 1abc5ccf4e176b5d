/-
  TraceFold.Pipeline.Check

  The checks that a trace has to pass before its tables are a pipeline.  Each check
  gives the first fault of its kind, in the order in which the tables are gone through,
  and `Trace.fault?` gives the first fault of the first check that has one.  Cycles are
  found later, when the codecs are put in order.
-/

import TraceFold.Trace.Ends
import TraceFold.Pipeline.Fault

namespace TraceFold.Trace

/-! ## Owners -/

/-- What is wrong with a graph listing a codec. -/
def memberFault? (t : Trace) (g : GraphId) (c : CodecId) : Option Fault :=
  if t.codecs.length ≤ c.index then some (.unknownCodec g c)
  else
    match t.ownerOf c with
    | some first => if first = g then none else some (.codecInMultipleGraphs c first g)
    | none => none

/-- Graphs list codecs of the table, and no codec is listed by two of them. -/
def ownerFault? (t : Trace) : Option Fault :=
  t.graphs.zipIdx.findSome? fun (graph, g) => graph.codecs.findSome? (t.memberFault? ⟨g⟩)

/-! ## Ends of streams -/

/-- What is wrong with a codec listing a stream as an output. -/
def outputFault? (t : Trace) (c : CodecId) (s : StreamId) : Option Fault :=
  if t.streams.length ≤ s.index then some (.unknownStream c s)
  else
    match t.sourceOf s with
    | some first => if first = c then none else some (.streamMultipleSources s first c)
    | none => none

/-- What is wrong with a codec listing a stream as an input. -/
def inputFault? (t : Trace) (c : CodecId) (s : StreamId) : Option Fault :=
  if t.streams.length ≤ s.index then some (.unknownStream c s)
  else
    match t.targetOf s with
    | some first => if first = c then none else some (.streamMultipleTargets s first c)
    | none => none

/-- Codecs list streams of the table, and no stream has two sources or two targets. -/
def endFault? (t : Trace) : Option Fault :=
  t.codecs.zipIdx.findSome? fun (codec, c) =>
    codec.outputs.findSome? (t.outputFault? ⟨c⟩) <|> codec.inputs.findSome? (t.inputFault? ⟨c⟩)

/-! ## Terminal streams -/

/-- A stream that nothing consumes is produced by some codec. -/
def unproducedTerminalFault? (t : Trace) : Option Fault :=
  t.streamIds.findSome? fun s =>
    if t.isTerminal s && (t.sourceOf s).isNone then some (.terminalWithoutSource s) else none

/-- No codec produces two streams that nothing consumes. -/
def terminalCountFault? (t : Trace) : Option Fault :=
  t.codecs.zipIdx.findSome? fun (codec, c) =>
    let terminals := t.terminalsOf codec
    if 1 < terminals.length then some (.multipleTerminals ⟨c⟩ terminals) else none

/-! ## The root -/

/-- The root input exists, only the root consumes it, nothing produces it, and it is
    the root's only input. -/
def rootFault? (t : Trace) : Option Fault :=
  let rootInputs := (t.codecs.head?.map (·.inputs)).getD []
  if t.streams.isEmpty then some .missingRootInput
  else if t.targetOf .rootInput ≠ some .root then
    some (.rootInputTarget (t.targetOf .rootInput))
  else
    match t.sourceOf .rootInput with
    | some source => some (.rootInputProduced source)
    | none => if rootInputs = [.rootInput] then none else some (.rootInputs rootInputs)

/-- Every stream that is drawn has a source. -/
def unproducedFault? (t : Trace) : Option Fault :=
  t.streamIds.findSome? fun s =>
    if s ≠ .rootInput ∧ t.isTerminal s = false ∧ t.sourceOf s = none then
      some (.streamWithoutSource s)
    else none

/-- Every codec but the root has an input. -/
def additionalRootFault? (t : Trace) : Option Fault :=
  t.codecs.zipIdx.findSome? fun (codec, c) =>
    if c ≠ 0 ∧ codec.inputs = [] then some (.additionalRoot ⟨c⟩) else none

/-! ## All checks -/

/-- There is at least one codec. -/
def emptyFault? (t : Trace) : Option Fault :=
  if t.codecs.isEmpty then some .emptyTrace else none

/-- The first fault of the first check that has one. -/
def fault? (t : Trace) : Option Fault :=
  t.emptyFault? <|> t.ownerFault? <|> t.endFault? <|> t.unproducedTerminalFault?
    <|> t.terminalCountFault? <|> t.rootFault? <|> t.unproducedFault? <|> t.additionalRootFault?

end TraceFold.Trace
