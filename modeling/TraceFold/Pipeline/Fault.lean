/-
  TraceFold.Pipeline.Fault

  Why a trace is not a pipeline.  Each fault names what it was found on; the wording is
  in `Fault.message` alone.
-/

import TraceFold.Id.Text

namespace TraceFold

inductive Fault where
  | emptyTrace
  | unknownStream (codec : CodecId) (stream : StreamId)
  | unknownCodec (graph : GraphId) (codec : CodecId)
  | codecInMultipleGraphs (codec : CodecId) (first second : GraphId)
  | streamMultipleSources (stream : StreamId) (first second : CodecId)
  | streamMultipleTargets (stream : StreamId) (first second : CodecId)
  | terminalWithoutSource (stream : StreamId)
  | multipleTerminals (codec : CodecId) (streams : List StreamId)
  | missingRootInput
  | rootInputTarget (found : Option CodecId)
  | rootInputProduced (source : CodecId)
  | rootInputs (inputs : List StreamId)
  | streamWithoutSource (stream : StreamId)
  | additionalRoot (codec : CodecId)
  | cycle (unresolved : List CodecId)
  deriving DecidableEq, Repr

namespace Fault

def code : Fault → String
  | .emptyTrace => "EMPTY_TRACE"
  | .unknownStream _ _ => "UNKNOWN_STREAM"
  | .unknownCodec _ _ => "UNKNOWN_CODEC"
  | .codecInMultipleGraphs _ _ _ => "CODEC_IN_MULTIPLE_GRAPHS"
  | .streamMultipleSources _ _ _ => "STREAM_MULTIPLE_SOURCES"
  | .streamMultipleTargets _ _ _ => "STREAM_MULTIPLE_TARGETS"
  | .terminalWithoutSource _ => "TERMINAL_STREAM_WITHOUT_SOURCE"
  | .multipleTerminals _ _ => "MULTIPLE_TERMINAL_STREAMS"
  | .missingRootInput => "MISSING_ROOT_INPUT"
  | .rootInputTarget _ => "ROOT_INPUT_TARGET"
  | .rootInputProduced _ => "ROOT_INPUT_PRODUCED"
  | .rootInputs _ => "ROOT_INPUTS"
  | .streamWithoutSource _ => "STREAM_WITHOUT_SOURCE"
  | .additionalRoot _ => "ADDITIONAL_ROOT"
  | .cycle _ => "CYCLE"

/-- Identifiers between commas. -/
def listed {α : Type} (text : α → String) (ids : List α) : String :=
  ", ".intercalate (ids.map text)

def message : Fault → String
  | .emptyTrace => "Empty trace: at least the root codec is required"
  | .unknownStream codec stream =>
    "Unknown stream: " ++ codec.text ++ " references " ++ stream.text ++ " which doesn't exist"
  | .unknownCodec graph codec =>
    "Unknown codec: " ++ graph.text ++ " references " ++ codec.text ++ " which doesn't exist"
  | .codecInMultipleGraphs codec first second =>
    "Codec " ++ codec.text ++ " is owned by both " ++ first.text ++ " and " ++ second.text
  | .streamMultipleSources stream first second =>
    "Stream " ++ stream.text ++ " is produced by both " ++ first.text ++ " and " ++ second.text
  | .streamMultipleTargets stream first second =>
    "Stream " ++ stream.text ++ " is consumed by both " ++ first.text ++ " and " ++ second.text
  | .terminalWithoutSource stream =>
    "Terminal stream " ++ stream.text ++ " has no source codec"
  | .multipleTerminals codec streams =>
    "Codec " ++ codec.text ++ " produces more than one terminal stream: "
      ++ listed StreamId.text streams
  | .missingRootInput => "Missing root input stream S0"
  | .rootInputTarget found =>
    "Root input stream S0 must target C0, found " ++ (found.map CodecId.text).getD "none"
  | .rootInputProduced source =>
    "Root input stream S0 must not be produced by a codec, found " ++ source.text
  | .rootInputs inputs =>
    "Root codec C0 must have S0 as its sole input, found [" ++ listed StreamId.text inputs ++ "]"
  | .streamWithoutSource stream =>
    "Stream " ++ stream.text ++ " has a target but no source codec"
  | .additionalRoot codec =>
    "Codec " ++ codec.text ++ " has no inputs but is not the root"
  | .cycle unresolved => "Cycle detected among codecs: " ++ listed CodecId.text unresolved

end Fault

end TraceFold
