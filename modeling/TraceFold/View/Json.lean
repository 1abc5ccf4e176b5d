/-
  TraceFold.View.Json

  Views in JSON.  A node says in its member `type` what it is, or, if it is written as
  an array, in its first item.  Nodes are read in full, the members that no field takes
  included, and nesting in them is limited.
-/

import TraceFold.Json.Record
import TraceFold.Json.Reader
import TraceFold.Trace.Json
import TraceFold.View.Basic

namespace TraceFold

open Json (Field)

namespace CodecView

/-- The fields of a codec. -/
def fields : List Field :=
  [⟨"id", none⟩, ⟨"name", none⟩, ⟨"kind", none⟩, ⟨"type_id", none⟩, ⟨"header_size", none⟩,
    ⟨"header", none⟩, ⟨"detail", none⟩, ⟨"failure_message", none⟩, ⟨"owning_graph", none⟩,
    ⟨"in_progress", none⟩, ⟨"store", none⟩, ⟨"has_local_params", none⟩, ⟨"visible", none⟩,
    ⟨"collapsed", none⟩, ⟨"collapsible", none⟩, ⟨"expandable_one_level", none⟩,
    ⟨"in_largest_path", none⟩]

/-- The members of a codec, without those that are absent. -/
def members (v : CodecView) : List (String × Json) :=
  [("id", .ofString v.id), ("name", .ofString v.name), ("kind", .ofString v.kind),
    ("type_id", .ofNat v.typeId), ("header_size", .ofNat v.headerSize),
    ("header", .ofString v.header), ("detail", .ofString v.detail)]
    ++ Json.optionalMember "failure_message" .ofString v.failure
    ++ Json.optionalMember "owning_graph" .ofString v.owner
    ++ [("in_progress", .bool v.inProgress), ("store", .bool v.isStore),
      ("has_local_params", .bool v.hasParams), ("visible", .bool v.visible),
      ("collapsed", .bool v.collapsed), ("collapsible", .bool v.collapsible),
      ("expandable_one_level", .bool v.expandable), ("in_largest_path", .bool v.marked)]

/-- The codec that a record gives. -/
def ofJson? (j : Json) : Option CodecView := do
  let slots ← Json.slots? fields j
  let id ← slots.required "id" Json.text?
  let name ← slots.required "name" Json.text?
  let kind ← slots.required "kind" Json.text?
  let typeId ← slots.required "type_id" (Json.word? 32)
  let headerSize ← slots.required "header_size" (Json.word? 64)
  let header ← slots.required "header" Json.text?
  let detail ← slots.required "detail" Json.text?
  let failure ← slots.orElse "failure_message" (Json.option? Json.text?) none
  let owner ← slots.orElse "owning_graph" (Json.option? Json.text?) none
  let inProgress ← slots.required "in_progress" Json.bool?
  let isStore ← slots.required "store" Json.bool?
  let hasParams ← slots.required "has_local_params" Json.bool?
  let visible ← slots.required "visible" Json.bool?
  let collapsed ← slots.required "collapsed" Json.bool?
  let collapsible ← slots.required "collapsible" Json.bool?
  let expandable ← slots.required "expandable_one_level" Json.bool?
  let marked ← slots.required "in_largest_path" Json.bool?
  pure {
    id, name, kind, typeId, headerSize, header, detail, failure, owner, inProgress, isStore
    hasParams, visible, collapsed, collapsible, expandable, marked }

end CodecView

namespace GraphView

/-- The fields of a function graph. -/
def fields : List Field :=
  [⟨"id", none⟩, ⟨"name", none⟩, ⟨"graph_type", none⟩, ⟨"header", none⟩, ⟨"detail", none⟩,
    ⟨"failure_message", none⟩, ⟨"codec_ids", none⟩, ⟨"has_local_params", none⟩,
    ⟨"visible", none⟩, ⟨"collapsed", none⟩, ⟨"in_largest_path", none⟩]

/-- The members of a function graph, without those that are absent. -/
def members (v : GraphView) : List (String × Json) :=
  [("id", .ofString v.id), ("name", .ofString v.name), ("graph_type", .ofString v.kind),
    ("header", .ofString v.header), ("detail", .ofString v.detail)]
    ++ Json.optionalMember "failure_message" .ofString v.failure
    ++ [("codec_ids", .ofList .ofString v.codecs), ("has_local_params", .bool v.hasParams),
      ("visible", .bool v.visible), ("collapsed", .bool v.collapsed),
      ("in_largest_path", .bool v.marked)]

/-- The function graph that a record gives. -/
def ofJson? (j : Json) : Option GraphView := do
  let slots ← Json.slots? fields j
  let id ← slots.required "id" Json.text?
  let name ← slots.required "name" Json.text?
  let kind ← slots.required "graph_type" Json.text?
  let header ← slots.required "header" Json.text?
  let detail ← slots.required "detail" Json.text?
  let failure ← slots.orElse "failure_message" (Json.option? Json.text?) none
  let codecs ← slots.required "codec_ids" (Json.list? Json.text?)
  let hasParams ← slots.required "has_local_params" Json.bool?
  let visible ← slots.required "visible" Json.bool?
  let collapsed ← slots.required "collapsed" Json.bool?
  let marked ← slots.required "in_largest_path" Json.bool?
  pure { id, name, kind, header, detail, failure, codecs, hasParams, visible, collapsed, marked }

end GraphView

namespace NodeView

/-- The member that says what a node is. -/
def tagName : String := "type"

/-- A node as an object, what it is first. -/
def toJson : NodeView → Json
  | .codec v => .ofMembers ((tagName, .ofString "codec") :: v.members)
  | .graph v => .ofMembers ((tagName, .ofString "graph") :: v.members)

/-- How many containers may be inside one another in a node.  With the two around it a
    view has no more than 127. -/
def maxDepth : Nat := 125

/-- The node of a kind that a record gives. -/
def ofTag? (tag : Json) (record : Json) : Option NodeView :=
  match tag.text? with
  | some "codec" => (CodecView.ofJson? record).map .codec
  | some "graph" => (GraphView.ofJson? record).map .graph
  | _ => none

/-- The node that a record with a kind gives. -/
def ofJson? (j : Json) : Option NodeView :=
  if !j.isReadable maxDepth then none
  else
    match j with
    | .object members =>
      match members.filter (·.1 == some tagName) with
      | [(_, tag)] => ofTag? tag (.object (members.filter (·.1 != some tagName)))
      | _ => none
    | .array (tag :: items) => ofTag? tag (.array items)
    | _ => none

end NodeView

namespace EdgeView

/-- The fields of an edge. -/
def fields : List Field :=
  [⟨"id", none⟩, ⟨"source", none⟩, ⟨"target", none⟩, ⟨"label", none⟩, ⟨"in_largest_path", none⟩,
    ⟨"stream_ids", none⟩, ⟨"coalesced", none⟩]

/-- An edge as an object. -/
def toJson (e : EdgeView) : Json :=
  .ofMembers [("id", .ofString e.id), ("source", .ofString e.source),
    ("target", .ofString e.target), ("label", .ofString e.label),
    ("in_largest_path", .bool e.marked), ("stream_ids", .ofList .ofString e.streams),
    ("coalesced", .bool e.merged)]

/-- The edge that a record gives. -/
def ofJson? (j : Json) : Option EdgeView := do
  let slots ← Json.slots? fields j
  let id ← slots.required "id" Json.text?
  let source ← slots.required "source" Json.text?
  let target ← slots.required "target" Json.text?
  let label ← slots.required "label" Json.text?
  let marked ← slots.required "in_largest_path" Json.bool?
  let streams ← slots.required "stream_ids" (Json.list? Json.text?)
  let merged ← slots.required "coalesced" Json.bool?
  pure { id, source, target, label, marked, streams, merged }

end EdgeView

namespace View

/-- The fields of a view. -/
def fields : List Field :=
  [⟨"nodes", none⟩, ⟨"edges", none⟩]

/-- A view as an object. -/
def toJson (v : View) : Json :=
  .ofMembers [("nodes", .ofList NodeView.toJson v.nodes),
    ("edges", .ofList EdgeView.toJson v.edges)]

/-- The view that a record gives. -/
def ofJson? (j : Json) : Option View := do
  let slots ← Json.slots? fields j
  let nodes ← slots.required "nodes" (Json.list? NodeView.ofJson?)
  let edges ← slots.required "edges" (Json.list? EdgeView.ofJson?)
  pure { nodes, edges }

/-- The view that a JSON text gives. -/
def parse? (text : String) : Option View :=
  (Json.parse? text).bind ofJson?

end View

end TraceFold
