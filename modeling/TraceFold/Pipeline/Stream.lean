/-
  TraceFold.Pipeline.Stream

  A stream of a pipeline: its sizes, the codecs at its two ends, and whether it is
  drawn at all.  A stream that nothing consumes, and the one that feeds the root from
  outside, draw no edge.
-/

import TraceFold.Trace.Basic
import TraceFold.Id.Text
import TraceFold.Number.FixedPlaces

namespace TraceFold

/-- The layout of a stream's elements, by its type tag. -/
inductive ElementType where
  | serial
  | struct
  | numeric
  | string
  | other (tag : Nat)
  deriving DecidableEq, Repr, Inhabited

namespace ElementType

/-- Each of the four known layouts has one bit of the tag. -/
def ofTag : Nat → ElementType
  | 1 => .serial
  | 2 => .struct
  | 4 => .numeric
  | 8 => .string
  | tag => .other tag

def name : ElementType → String
  | .serial => "Serialized"
  | .struct => "Fixed_Width"
  | .numeric => "Numeric"
  | .string => "Variable_Size"
  | .other _ => "default"

end ElementType

inductive Exclusion where
  /-- Nothing consumes it. -/
  | terminal
  /-- It feeds the root codec from outside. -/
  | rootInput
  deriving DecidableEq, Repr

structure Stream where
  id : StreamId
  source : Option CodecId
  target : Option CodecId
  type : ElementType
  compressedSize : Nat
  elementCount : Nat
  elementWidth : Nat
  /-- Percentage of the total compressed size. -/
  share : Float
  outputIndex : Nat
  exclusion : Option Exclusion
  deriving Repr, Inhabited

/-- A share in percent, with a number of decimal places. -/
def shareText (places : Nat) (share : Float) : String :=
  " [" ++ Number.fixed places share ++ "%]"

namespace Stream

/-- The codecs at the two ends of a stream that is drawn. -/
def ends (s : Stream) : Option (CodecId × CodecId) :=
  match s.exclusion, s.source, s.target with
  | none, some source, some target => some (source, target)
  | _, _, _ => none

/-- Three lines: place and type, size and share, number and width of the elements. -/
def label (places : Nat) (s : Stream) : String :=
  "#" ++ toString s.outputIndex ++ " (" ++ s.id.text ++ ") | " ++ s.type.name
    ++ "\n" ++ toString s.compressedSize ++ shareText places s.share
    ++ "\n" ++ toString s.elementCount ++ " [" ++ toString s.elementWidth ++ "]"

end Stream

end TraceFold
