/-
  TraceFold.Id.Text

  Identifiers as text: `C3`, `S7`, `G1` and `proxy-G0-S3-C3`.  Node identifiers are
  also read, with blanks around them, the letter in either case and the number with
  or without a plus sign.
-/

import TraceFold.Id.Basic
import TraceFold.Text.Blank
import TraceFold.Text.Decimal

namespace TraceFold

/-- `C` and the number. -/
def CodecId.text (c : CodecId) : String :=
  String.ofList ('C' :: Text.digits c.index)

/-- `S` and the number. -/
def StreamId.text (s : StreamId) : String :=
  String.ofList ('S' :: Text.digits s.index)

/-- `G` and the number. -/
def GraphId.text (g : GraphId) : String :=
  String.ofList ('G' :: Text.digits g.index)

def NodeId.text : NodeId → String
  | .codec c => c.text
  | .graph g => g.text

/-- The identifier of the stream, or `proxy` and the three identifiers of a proxy. -/
def EdgeId.text : EdgeId → String
  | .stream s => s.text
  | .proxy source s target =>
    "proxy-" ++ source.text ++ "-" ++ s.text ++ "-" ++ target.text

/-! ## Reading -/

/-- A text that is no node identifier, without the blanks around it. -/
structure NodeTextError where
  text : String
  deriving DecidableEq, Repr

def NodeTextError.message (e : NodeTextError) : String :=
  "invalid node id '" ++ e.text ++ "': expected C<n> or G<n>"

/-- The largest number of an identifier. -/
def maxIndex : Nat :=
  UInt32.size - 1

/-- The number behind the letter of an identifier. -/
def indexOfChars? (cs : List Char) : Option Nat :=
  (Text.ofSignedDigits? cs).filter (· ≤ maxIndex)

/-- The node that a text without blanks around it names. -/
def NodeId.ofChars? : List Char → Option NodeId
  | [] => none
  | letter :: number =>
    match letter.toUpper with
    | 'C' => (indexOfChars? number).map fun n => .codec ⟨n⟩
    | 'G' => (indexOfChars? number).map fun n => .graph ⟨n⟩
    | _ => none

def NodeId.ofText (cs : List Char) : Except NodeTextError NodeId :=
  match NodeId.ofChars? (Text.trim cs) with
  | some node => .ok node
  | none => .error ⟨String.ofList (Text.trim cs)⟩

end TraceFold
