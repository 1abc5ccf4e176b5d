/-
  TraceFold.Pipeline.Graph

  A function graph: a named group of codecs that can be folded into one node.
-/

import TraceFold.Trace.Basic
import TraceFold.Id.Text

namespace TraceFold

inductive GraphKind where
  | standard
  | static
  | selector
  | function
  | multiInput
  | parameterized
  | segmenter
  /-- A kind that is not known; such a graph is not a standard one. -/
  | unknown
  deriving DecidableEq, Repr, Inhabited

namespace GraphKind

def name : GraphKind → String
  | .standard => "Standard"
  | .static => "Static"
  | .selector => "Selector"
  | .function => "Function"
  | .multiInput => "Multiple_Input"
  | .parameterized => "Parameterized"
  | .segmenter => "Segmenter"
  | .unknown => "Unknown"

/-- What may stand in front of a kind's tag. -/
def tagLead : List Char :=
  ['Z', 'L', '_', 'G', 'r', 'a', 'p', 'h', 'T', 'y', 'p', 'e', '_']

/-- The known kind that a tag names: blanks around it, the lead in front of it and the
    case of its letters do not matter. -/
def ofTag? (tag : String) : Option GraphKind :=
  let word := Text.trim tag.toList
  let word := (tagLead.isPrefixOf? word).getD word
  match String.ofList (word.map Char.toLower) with
  | "standard" => some .standard
  | "static" => some .static
  | "selector" => some .selector
  | "function" => some .function
  | "multi_input" => some .multiInput
  | "multiple_input" => some .multiInput
  | "parameterized" => some .parameterized
  | "segmenter" => some .segmenter
  | _ => none

/-- The kind that a tag names, unknown for every other tag. -/
def ofTag (tag : String) : GraphKind :=
  (ofTag? tag).getD .unknown

end GraphKind

structure Graph where
  id : GraphId
  kind : GraphKind
  name : String
  /-- Why the graph failed, if it did. -/
  failure : Option String
  params : LocalParams
  codecs : List CodecId
  deriving DecidableEq, Repr, Inhabited

namespace Graph

def first? (g : Graph) : Option CodecId :=
  g.codecs.head?

def isStandard (g : Graph) : Bool :=
  g.kind == .standard

def header (g : Graph) : String :=
  g.name ++ " (" ++ g.id.text ++ ")"

def detail (g : Graph) : String :=
  g.kind.name ++ " | " ++ toString g.codecs.length ++ " codecs"

end Graph

end TraceFold
