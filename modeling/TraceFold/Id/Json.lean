/-
  TraceFold.Id.Json

  Node and edge identifiers as JSON values: an object whose single member names the
  kind, such as `Codec` or `Proxy`, and holds the number or the parts.
-/

import TraceFold.Id.Basic
import TraceFold.Json.Record

namespace TraceFold

/-- The name and the value of an object's only member. -/
def Json.onlyMember? : Json → Option (String × Json)
  | .object [(some name, value)] => some (name, value)
  | _ => none

def Json.index? (j : Json) : Option Nat :=
  j.word? 32

namespace NodeId

/-- A node identifier as an object with one member. -/
def toJson : NodeId → Json
  | .codec c => .ofMembers [("Codec", .ofNat c.index)]
  | .graph g => .ofMembers [("Graph", .ofNat g.index)]

/-- The node identifier that an object with one member gives. -/
def ofJson? (j : Json) : Option NodeId := do
  let (kind, value) ← j.onlyMember?
  match kind with
  | "Codec" => value.index?.map fun n => .codec ⟨n⟩
  | "Graph" => value.index?.map fun n => .graph ⟨n⟩
  | _ => none

end NodeId

namespace EdgeId

/-- The fields of a proxy's identifier. -/
def proxyFields : List Json.Field :=
  [⟨"source", none⟩, ⟨"stream", none⟩, ⟨"target", none⟩]

/-- An edge identifier as an object with one member. -/
def toJson : EdgeId → Json
  | .stream s => .ofMembers [("Stream", .ofNat s.index)]
  | .proxy source s target =>
    .ofMembers [("Proxy", .ofMembers [("source", source.toJson), ("stream", .ofNat s.index),
      ("target", target.toJson)])]

/-- The parts of a proxy's identifier, which are always named. -/
def proxyOfJson? : Json → Option EdgeId
  | .object members => do
    let slots ← Json.slotsOfMembers? proxyFields members
    let source ← slots.required "source" NodeId.ofJson?
    let stream ← slots.required "stream" Json.index?
    let target ← slots.required "target" NodeId.ofJson?
    pure (.proxy source ⟨stream⟩ target)
  | _ => none

/-- The edge identifier that an object with one member gives. -/
def ofJson? (j : Json) : Option EdgeId := do
  let (kind, value) ← j.onlyMember?
  match kind with
  | "Stream" => value.index?.map fun n => .stream ⟨n⟩
  | "Proxy" => proxyOfJson? value
  | _ => none

end EdgeId

end TraceFold
