/-
  TraceFold.LargestPath

  The path of the largest streams.  It starts at the root and follows, out of each
  codec, the output of the largest compressed size; of several the first one.  It ends
  at a codec without outputs.
-/

import TraceFold.Pipeline.Basic

namespace TraceFold

/-- A codec of the path, and the stream that is followed out of it. -/
structure PathStep where
  codec : CodecId
  /-- Absent at the end of the path. -/
  via : Option StreamId
  deriving DecidableEq, Repr

/-- The first of the largest streams. -/
def firstLargest : List (Stream × CodecId) → Option (Stream × CodecId)
  | [] => none
  | x :: rest =>
    match firstLargest rest with
    | none => some x
    | some best => if x.1.compressedSize < best.1.compressedSize then some best else some x

namespace Pipeline

/-- The path from a codec on, of at most as many steps as given. -/
def pathFrom (p : Pipeline) : Nat → CodecId → List PathStep
  | 0, _ => []
  | steps + 1, c =>
    match p.codec? c with
    | none => []
    | some codec =>
      match firstLargest (p.drawnOutputs codec) with
      | none => [⟨c, none⟩]
      | some (stream, target) => ⟨c, some stream.id⟩ :: p.pathFrom steps target

/-- The path of the largest streams.  It visits no codec twice, so as many steps as
    there are codecs suffice. -/
def largestPath (p : Pipeline) : List PathStep :=
  p.pathFrom p.codecs.size .root

end Pipeline

end TraceFold
