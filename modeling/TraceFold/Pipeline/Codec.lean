/-
  TraceFold.Pipeline.Codec

  A codec of a pipeline: its record, its place in the table and the graph that owns it.
-/

import TraceFold.Trace.Basic
import TraceFold.Id.Text

namespace TraceFold

structure Codec where
  id : CodecId
  name : String
  isStandard : Bool
  typeId : Nat
  headerSize : Nat
  /-- Why the codec failed, if it did. -/
  failure : Option String
  params : LocalParams
  inputs : List StreamId
  outputs : List StreamId
  /-- The graph that lists the codec, if one does. -/
  owner : Option GraphId
  deriving DecidableEq, Repr, Inhabited

namespace Codec

/-- The name of the stand-in for a codec that had not run when compression stopped. -/
def inProgressName : String := "zl.#in_progress"

/-- The name of the codec that stores its input as it is. -/
def storeName : String := "zl.store"

/-- Whether compression stopped before this codec ran. -/
def isInProgress (c : Codec) : Bool :=
  c.name == inProgressName

/-- Whether this codec stores its input as it is. -/
def isStore (c : Codec) : Bool :=
  c.name == storeName

/-- Built in, or not. -/
def kindText (c : Codec) : String :=
  if c.isStandard then "Standard" else "Custom"

def header (c : Codec) : String :=
  c.name ++ " (" ++ toString c.typeId ++ ") (" ++ c.id.text ++ ")"

def detail (c : Codec) : String :=
  c.kindText ++ " | " ++ toString c.headerSize

end Codec

end TraceFold
