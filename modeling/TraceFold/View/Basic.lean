/-
  TraceFold.View.Basic

  The picture as it is handed to whoever draws it: every node and edge with its texts
  and flags, and identifiers as text.
-/

namespace TraceFold

/-- A codec of the view. -/
structure CodecView where
  id : String
  name : String
  kind : String
  typeId : Nat
  headerSize : Nat
  header : String
  detail : String
  failure : Option String
  owner : Option String
  inProgress : Bool
  isStore : Bool
  hasParams : Bool
  visible : Bool
  collapsed : Bool
  /-- Something is below the codec that can be collapsed. -/
  collapsible : Bool
  expandable : Bool
  marked : Bool
  deriving DecidableEq, Repr, Inhabited

/-- A function graph of the view. -/
structure GraphView where
  id : String
  name : String
  kind : String
  header : String
  detail : String
  failure : Option String
  codecs : List String
  hasParams : Bool
  visible : Bool
  collapsed : Bool
  marked : Bool
  deriving DecidableEq, Repr, Inhabited

/-- A node of the view. -/
inductive NodeView where
  | codec (view : CodecView)
  | graph (view : GraphView)
  deriving DecidableEq, Repr, Inhabited

namespace NodeView

/-- The identifier of a node. -/
def id : NodeView → String
  | .codec v => v.id
  | .graph v => v.id

/-- The header of a node. -/
def header : NodeView → String
  | .codec v => v.header
  | .graph v => v.header

/-- The detail of a node. -/
def detail : NodeView → String
  | .codec v => v.detail
  | .graph v => v.detail

/-- Why the node failed, if it did. -/
def failure : NodeView → Option String
  | .codec v => v.failure
  | .graph v => v.failure

def collapsed : NodeView → Bool
  | .codec v => v.collapsed
  | .graph v => v.collapsed

/-- Whether the marked path goes through a node. -/
def marked : NodeView → Bool
  | .codec v => v.marked
  | .graph v => v.marked

end NodeView

/-- An edge of the view. -/
structure EdgeView where
  id : String
  source : String
  target : String
  label : String
  marked : Bool
  streams : List String
  /-- Stands for several streams. -/
  merged : Bool
  deriving DecidableEq, Repr, Inhabited

/-- A picture, ready to be drawn. -/
structure View where
  nodes : List NodeView := []
  edges : List EdgeView := []
  deriving DecidableEq, Repr, Inhabited

namespace View

/-- The node of an identifier. -/
def node? (v : View) (id : String) : Option NodeView :=
  v.nodes.find? (·.id == id)

/-- The edge from a node to another one. -/
def edgeBetween? (v : View) (source target : String) : Option EdgeView :=
  v.edges.find? fun e => e.source == source && e.target == target

end View

end TraceFold
