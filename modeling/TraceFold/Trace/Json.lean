/-
  TraceFold.Trace.Json

  Traces in JSON.  Most fields have a second, shorter name, and most have a value of
  their own where they are missing.  A trace is written with the long names and all
  fields, but for those that are absent.
-/

import TraceFold.Trace.Basic
import TraceFold.Json.Record
import TraceFold.Json.Reader

namespace TraceFold

open Json (Field)

/-! ## Local parameters -/

namespace IntParam

/-- The fields of a number parameter. -/
def fields : List Field :=
  [⟨"paramId", none⟩, ⟨"paramValue", none⟩]

/-- A number parameter as an object. -/
def toJson (p : IntParam) : Json :=
  .ofMembers [("paramId", .ofInt p.id), ("paramValue", .ofInt p.value)]

/-- The number parameter that a record gives. -/
def ofJson? (j : Json) : Option IntParam := do
  let slots ← Json.slots? fields j
  let id ← slots.required "paramId" (Json.signedWord? 32)
  let value ← slots.required "paramValue" (Json.signedWord? 64)
  pure { id, value }

end IntParam

namespace CopyParam

/-- The fields of a copied parameter. -/
def fields : List Field :=
  [⟨"paramId", none⟩, ⟨"paramSize", none⟩, ⟨"paramData", none⟩]

/-- A copied parameter as an object. -/
def toJson (p : CopyParam) : Json :=
  .ofMembers [("paramId", .ofInt p.id), ("paramSize", .ofNat p.size),
    ("paramData", .ofList .ofNat p.data)]

/-- The copied parameter that a record gives. -/
def ofJson? (j : Json) : Option CopyParam := do
  let slots ← Json.slots? fields j
  let id ← slots.required "paramId" (Json.signedWord? 32)
  let size ← slots.required "paramSize" (Json.word? 64)
  let data ← slots.orElse "paramData" (Json.list? (Json.word? 8)) []
  pure { id, size, data }

end CopyParam

namespace RefParam

/-- The fields of a parameter recorded by reference. -/
def fields : List Field :=
  [⟨"paramId", none⟩, ⟨"paramSize", none⟩]

/-- A parameter recorded by reference as an object. -/
def toJson (p : RefParam) : Json :=
  .ofMembers [("paramId", .ofInt p.id), ("paramSize", .ofNat p.size)]

/-- The parameter recorded by reference that a record gives. -/
def ofJson? (j : Json) : Option RefParam := do
  let slots ← Json.slots? fields j
  let id ← slots.required "paramId" (Json.signedWord? 32)
  let size ← slots.required "paramSize" (Json.word? 64)
  pure { id, size }

end RefParam

namespace LocalParams

/-- The fields of a set of local parameters. -/
def fields : List Field :=
  [⟨"intParams", none⟩, ⟨"copyParams", none⟩, ⟨"refParams", none⟩]

/-- Local parameters as an object. -/
def toJson (p : LocalParams) : Json :=
  .ofMembers [("intParams", .ofList IntParam.toJson p.ints),
    ("copyParams", .ofList CopyParam.toJson p.copies),
    ("refParams", .ofList RefParam.toJson p.refs)]

/-- The local parameters that a record gives. -/
def ofJson? (j : Json) : Option LocalParams := do
  let slots ← Json.slots? fields j
  let ints ← slots.orElse "intParams" (Json.list? IntParam.ofJson?) []
  let copies ← slots.orElse "copyParams" (Json.list? CopyParam.ofJson?) []
  let refs ← slots.orElse "refParams" (Json.list? RefParam.ofJson?) []
  pure { ints, copies, refs }

end LocalParams

/-- The member for something that may be absent. -/
def Json.optionalMember {α : Type} (name : String) (write : α → Json) :
    Option α → List (String × Json)
  | none => []
  | some x => [(name, write x)]

/-- A codec's identifier in a record: its number alone. -/
def CodecId.ofNumber? (j : Json) : Option CodecId :=
  (j.word? 32).map CodecId.mk

/-- A stream's identifier in a record: its number alone. -/
def StreamId.ofNumber? (j : Json) : Option StreamId :=
  (j.word? 32).map StreamId.mk

/-! ## The tables -/

namespace CodecRecord

/-- The fields of a codec. -/
def fields : List Field :=
  [⟨"name", none⟩, ⟨"isStandard", "cType"⟩, ⟨"typeId", "cID"⟩, ⟨"headerSize", "cHeaderSize"⟩,
    ⟨"failureMessage", "cFailureString"⟩, ⟨"localParams", "cLocalParams"⟩,
    ⟨"inputStreamIds", "inputStreams"⟩, ⟨"outputStreamIds", "outputStreams"⟩]

/-- A codec as an object. -/
def toJson (c : CodecRecord) : Json :=
  .ofMembers ([("name", .ofString c.name), ("isStandard", .bool c.isStandard),
      ("typeId", .ofNat c.typeId), ("headerSize", .ofNat c.headerSize)]
    ++ Json.optionalMember "failureMessage" .ofString c.failure
    ++ [("localParams", c.params.toJson),
      ("inputStreamIds", .ofList (fun s => .ofNat s.index) c.inputs),
      ("outputStreamIds", .ofList (fun s => .ofNat s.index) c.outputs)])

/-- The codec that a record gives. -/
def ofJson? (j : Json) : Option CodecRecord := do
  let slots ← Json.slots? fields j
  let name ← slots.required "name" Json.text?
  let isStandard ← slots.orElse "isStandard" Json.bool? false
  let typeId ← slots.orElse "typeId" (Json.word? 32) 0
  let headerSize ← slots.orElse "headerSize" (Json.word? 64) 0
  let failure ← slots.orElse "failureMessage" (Json.option? Json.text?) none
  let params ← slots.orElse "localParams" LocalParams.ofJson? {}
  let inputs ← slots.orElse "inputStreamIds" (Json.list? StreamId.ofNumber?) []
  let outputs ← slots.orElse "outputStreamIds" (Json.list? StreamId.ofNumber?) []
  pure { name, isStandard, typeId, headerSize, failure, params, inputs, outputs }

end CodecRecord

namespace StreamRecord

/-- The fields of a stream. -/
def fields : List Field :=
  [⟨"sourceCodec", none⟩, ⟨"targetCodec", none⟩, ⟨"typeTag", "type"⟩,
    ⟨"compressedSize", "cSize"⟩, ⟨"elementCount", "numElts"⟩, ⟨"elementWidth", "eltWidth"⟩,
    ⟨"share", none⟩, ⟨"outputIndex", "outputIdx"⟩]

/-- A stream as an object, its share written by a function of its own. -/
def toJsonWith (writeShare : Float → Json) (s : StreamRecord) : Json :=
  .ofMembers (Json.optionalMember "sourceCodec" (fun c => .ofNat c.index) s.sourceHint
    ++ Json.optionalMember "targetCodec" (fun c => .ofNat c.index) s.targetHint
    ++ [("typeTag", .ofNat s.typeTag), ("compressedSize", .ofNat s.compressedSize),
      ("elementCount", .ofNat s.elementCount), ("elementWidth", .ofNat s.elementWidth),
      ("share", writeShare s.share), ("outputIndex", .ofNat s.outputIndex)])

/-- The stream that a record gives. -/
def ofJson? (j : Json) : Option StreamRecord := do
  let slots ← Json.slots? fields j
  let sourceHint ← slots.orElse "sourceCodec" (Json.option? CodecId.ofNumber?) none
  let targetHint ← slots.orElse "targetCodec" (Json.option? CodecId.ofNumber?) none
  let typeTag ← slots.orElse "typeTag" (Json.word? 8) 0
  let compressedSize ← slots.orElse "compressedSize" (Json.word? 64) 0
  let elementCount ← slots.orElse "elementCount" (Json.word? 64) 0
  let elementWidth ← slots.orElse "elementWidth" (Json.word? 64) 0
  let share ← slots.orElse "share" Json.float? 0
  let outputIndex ← slots.orElse "outputIndex" (Json.word? 32) 0
  pure {
    sourceHint, targetHint, typeTag, compressedSize, elementCount, elementWidth, share
    outputIndex }

end StreamRecord

namespace GraphRecord

/-- The fields of a function graph. -/
def fields : List Field :=
  [⟨"graphType", "gType"⟩, ⟨"name", "gName"⟩, ⟨"failureMessage", "gFailureString"⟩,
    ⟨"localParams", "gLocalParams"⟩, ⟨"codecIds", "codecIDs"⟩]

/-- A function graph as an object. -/
def toJson (g : GraphRecord) : Json :=
  .ofMembers ([("graphType", .ofString g.kind), ("name", .ofString g.name)]
    ++ Json.optionalMember "failureMessage" .ofString g.failure
    ++ [("localParams", g.params.toJson),
      ("codecIds", .ofList (fun c => .ofNat c.index) g.codecs)])

/-- The function graph that a record gives. -/
def ofJson? (j : Json) : Option GraphRecord := do
  let slots ← Json.slots? fields j
  let kind ← slots.required "graphType" Json.text?
  let name ← slots.orElse "name" Json.text? ""
  let failure ← slots.orElse "failureMessage" (Json.option? Json.text?) none
  let params ← slots.orElse "localParams" LocalParams.ofJson? {}
  let codecs ← slots.orElse "codecIds" (Json.list? CodecId.ofNumber?) []
  pure { kind, name, failure, params, codecs }

end GraphRecord

namespace Trace

/-- The fields of a trace. -/
def fields : List Field :=
  [⟨"codecs", none⟩, ⟨"streams", none⟩, ⟨"graphs", none⟩]

/-- A trace as an object, the shares of its streams written by a function of their own. -/
def toJsonWith (writeShare : Float → Json) (t : Trace) : Json :=
  .ofMembers [("codecs", .ofList CodecRecord.toJson t.codecs),
    ("streams", .ofList (StreamRecord.toJsonWith writeShare) t.streams),
    ("graphs", .ofList GraphRecord.toJson t.graphs)]

/-- A trace as an object. -/
def toJson (t : Trace) : Json :=
  t.toJsonWith .ofFloat

/-- The trace that a record gives. -/
def ofJson? (j : Json) : Option Trace := do
  let slots ← Json.slots? fields j
  let codecs ← slots.orElse "codecs" (Json.list? CodecRecord.ofJson?) []
  let streams ← slots.orElse "streams" (Json.list? StreamRecord.ofJson?) []
  let graphs ← slots.orElse "graphs" (Json.list? GraphRecord.ofJson?) []
  pure { codecs, streams, graphs }

/-- The trace that a JSON text gives. -/
def parse? (text : String) : Option Trace :=
  (Json.parse? text).bind ofJson?

end Trace

end TraceFold
