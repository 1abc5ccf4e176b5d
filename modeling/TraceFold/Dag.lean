/-
  TraceFold.Dag

  Which codecs feed which, and an order in which every codec comes before those that
  it feeds.  The order is found by taking away codecs that nothing feeds any more:
  codecs that are free at the start come in ascending order, and the ones set free
  later queue up behind them.
-/

import TraceFold.Pipeline.Basic

namespace TraceFold

/-- The children of every codec, the codecs in order, and the place of every codec in it. -/
structure Dag where
  children : Array (List CodecId)
  order : List CodecId
  places : Array Nat
  deriving Repr, Inhabited

namespace Dag

/-- The children in a table of them. -/
def childrenIn (children : Array (List CodecId)) (c : CodecId) : List CodecId :=
  children[c.index]?.getD []

/-- How many codecs feed each codec, a codec that lists a child twice counted twice. -/
def inDegrees (children : Array (List CodecId)) : Array Nat :=
  children.toList.flatten.foldl (fun degrees c => degrees.modify c.index (· + 1))
    (Array.replicate children.size 0)

/-- Takes a codec's children off the degrees, one at a time; also gives the children
    that are free then, in order. -/
def release (degrees : Array Nat) : List CodecId → Array Nat × List CodecId
  | [] => (degrees, [])
  | c :: rest =>
    -- a child listed twice is free at its last mention only
    let lowered := degrees.modify c.index (· - 1)
    let (degrees, free) := release lowered rest
    (degrees, if lowered[c.index]? = some 0 then c :: free else free)

/-- The codecs in the order in which they leave the queue, and the degrees that are left
    once it is empty.  At most `steps` codecs are taken. -/
def drain (children : Array (List CodecId)) :
    Nat → Array Nat → List CodecId → List CodecId × Array Nat
  | 0, degrees, _ => ([], degrees)
  | _ + 1, degrees, [] => ([], degrees)
  | steps + 1, degrees, c :: queue =>
    let (degrees, free) := release degrees (childrenIn children c)
    let (order, left) := drain children steps degrees (queue ++ free)
    (c :: order, left)

/-- The codecs whose degree passes a test, in ascending order. -/
def codecsWhere (degrees : Array Nat) (test : Nat → Bool) : List CodecId :=
  ((List.range degrees.size).filter fun i => degrees[i]?.any test).map CodecId.mk

/-- Enters the places of some codecs into a table, the first one's being `i`. -/
def enterPlaces (places : Array Nat) (i : Nat) : List CodecId → Array Nat
  | [] => places
  | c :: rest => enterPlaces (places.setIfInBounds c.index i) (i + 1) rest

/-- The place of every codec of an order. -/
def placesOf (size : Nat) (order : List CodecId) : Array Nat :=
  enterPlaces (Array.replicate size 0) 0 order

/-- Puts the codecs of a table of children in order.  If a cycle keeps some of them from
    being taken, gives those, in ascending order.  No codec enters the queue twice, so as
    many steps as there are codecs suffice. -/
def ofChildren (children : Array (List CodecId)) : Except (List CodecId) Dag :=
  let degrees := inDegrees children
  let (order, left) := drain children children.size degrees (codecsWhere degrees (· == 0))
  -- codecs on a cycle, and those behind it, never reach degree zero
  if order.length = children.size then
    .ok { children, order, places := placesOf children.size order }
  else .error (codecsWhere left (0 < ·))

/-- The codecs that a codec feeds, each once, in the order of its outputs. -/
def childrenOf (d : Dag) (c : CodecId) : List CodecId :=
  childrenIn d.children c

/-- Whether a codec feeds another one. -/
def hasChildren (d : Dag) (c : CodecId) : Bool :=
  !(d.childrenOf c).isEmpty

/-- The place of a codec in the order, from the table. -/
def position? (d : Dag) (c : CodecId) : Option Nat :=
  d.places[c.index]?

/-- The codecs from the last one to the first: each comes before those that feed it. -/
def reverseOrder (d : Dag) : List CodecId :=
  d.order.reverse

end Dag

def Pipeline.children (p : Pipeline) : Array (List CodecId) :=
  p.codecs.map fun c => ((p.drawnOutputs c).map (·.2)).eraseDups

end TraceFold
