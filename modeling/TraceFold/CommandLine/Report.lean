/-
  TraceFold.CommandLine.Report

  The answers of the program as text: one line per item in plain text, a few lines per
  item in pretty text, and indented JSON.
-/

import TraceFold.CommandLine.Invocation
import TraceFold.Json.Printer
import TraceFold.View.Json
import TraceFold.View.Project

namespace TraceFold.CommandLine

/-- Lines, each with its end. -/
def unlines (ls : List String) : String :=
  String.join (ls.map (· ++ "\n"))

/-! ## The view -/

/-- A line for each node, then one for each edge. -/
def viewLines (v : View) : List String :=
  v.nodes.map (fun n => "node " ++ n.id)
    ++ v.edges.map fun e => "edge " ++ e.id ++ " " ++ e.source ++ " -> " ++ e.target

/-- The lines of a node: its header with its flags, its detail, and why it failed. -/
def nodeLines (n : NodeView) : List String :=
  let flags := (if n.collapsed then " [collapsed]" else "") ++ if n.marked then " *" else ""
  ["  " ++ n.header ++ flags, "      " ++ n.detail]
    ++ (n.failure.map fun cause => "      failed: " ++ cause).toList

/-- The text up to the first line break. -/
def firstLine (s : String) : String :=
  String.ofList (s.toList.takeWhile (· ≠ '\n'))

/-- The line of an edge: its ends and the first line of its label. -/
def edgeLine (e : EdgeView) : String :=
  "  " ++ e.source ++ " -> " ++ e.target ++ " " ++ firstLine e.label

/-- A headline, the nodes, and behind an empty line the edges. -/
def prettyViewLines (v : View) : List String :=
  ["Visible graph " ++ toString v.nodes.length ++ " node(s), " ++ toString v.edges.length
      ++ " edge(s)"]
    ++ v.nodes.flatMap nodeLines
    ++ (if v.edges.isEmpty then [] else [""])
    ++ v.edges.map edgeLine

/-- A view in a format. -/
def viewReport (format : Format) (v : View) : String :=
  match format with
  | .json => v.toJson.indented ++ "\n"
  | .text => unlines (viewLines v)
  | .pretty => unlines (prettyViewLines v)

/-! ## The order -/

/-- The headers of the codecs with their places. -/
def prettyOrderLines (s : Scene) : List String :=
  ("DAG order " ++ toString s.dag.order.length ++ " codec(s)")
    :: (s.dag.order.mapIdx fun i c =>
      (s.pipeline.codec? c).map fun codec =>
        "  [" ++ toString i ++ "] " ++ codec.header).reduceOption

/-- The order of the codecs in a format. -/
def orderReport (format : Format) (s : Scene) : String :=
  match format with
  | .json => (Json.ofList (fun c => Json.ofString (CodecId.text c)) s.dag.order).indented ++ "\n"
  | .text => unlines (s.dag.order.map CodecId.text)
  | .pretty => unlines (prettyOrderLines s)

/-! ## The path -/

/-- A step of the path as an object. -/
def PathStep.toJson (step : PathStep) : Json :=
  .ofMembers [("codec", .ofString step.codec.text),
    ("via", .ofOption (fun v => .ofString (StreamId.text v)) step.via)]

/-- The line of a step: the codec, and the stream that is followed with its size. -/
def stepLine (s : Scene) (step : PathStep) : String :=
  let name := ((s.pipeline.codec? step.codec).map (·.header)).getD step.codec.text
  match step.via.bind s.pipeline.stream? with
  | some stream =>
    "  " ++ name ++ " --" ++ stream.id.text ++ "--> " ++ toString stream.compressedSize ++ " bytes"
  | none => "  " ++ name

/-- A path in a format. -/
def pathReport (format : Format) (s : Scene) (path : List PathStep) : String :=
  match format with
  | .json => (Json.ofList PathStep.toJson path).indented ++ "\n"
  | .text => " -> ".intercalate (path.map (·.codec.text)) ++ "\n"
  | .pretty =>
    unlines (("Largest path " ++ toString path.length ++ " step(s)") :: path.map (stepLine s))

end TraceFold.CommandLine
