/-
  TraceFold.Id.Basic

  Identifiers.  Codecs, streams and function graphs are numbered from zero, each in a
  space of their own.  A node of the picture is a codec or a graph.  An edge of the
  picture is a stream drawn between its two codecs, or a proxy that stands in for a
  stream where an end is behind a graph.

  The orders compare the kind first and the numbers after it.
-/

namespace TraceFold

structure CodecId where
  index : Nat
  deriving DecidableEq, Repr, Inhabited, Ord

structure StreamId where
  index : Nat
  deriving DecidableEq, Repr, Inhabited, Ord

structure GraphId where
  index : Nat
  deriving DecidableEq, Repr, Inhabited, Ord

@[simp] theorem CodecId.index_inj {c d : CodecId} : c.index = d.index ↔ c = d := by
  cases c; cases d; simp

@[simp] theorem StreamId.index_inj {s t : StreamId} : s.index = t.index ↔ s = t := by
  cases s; cases t; simp

@[simp] theorem GraphId.index_inj {g h : GraphId} : g.index = h.index ↔ g = h := by
  cases g; cases h; simp

/-- The root codec: the only codec without inputs. -/
def CodecId.root : CodecId := ⟨0⟩

/-- The stream that feeds the root codec from outside. -/
def StreamId.rootInput : StreamId := ⟨0⟩

inductive NodeId where
  | codec (id : CodecId)
  | graph (id : GraphId)
  deriving DecidableEq, Repr, Inhabited, Ord

namespace NodeId

/-- The codec that a node is, if it is one. -/
def codec? : NodeId → Option CodecId
  | .codec id => some id
  | .graph _ => none

/-- The graph that a node is, if it is one. -/
def graph? : NodeId → Option GraphId
  | .graph id => some id
  | .codec _ => none

end NodeId

inductive EdgeId where
  | stream (id : StreamId)
  | proxy (source : NodeId) (stream : StreamId) (target : NodeId)
  deriving DecidableEq, Repr, Inhabited, Ord

namespace EdgeId

/-- The stream that an edge draws or stands in for. -/
def carried : EdgeId → StreamId
  | .stream id => id
  | .proxy _ s _ => s

/-- Whether an edge stands in for a stream. -/
def isProxy : EdgeId → Bool
  | .stream _ => false
  | .proxy _ _ _ => true

end EdgeId

end TraceFold
