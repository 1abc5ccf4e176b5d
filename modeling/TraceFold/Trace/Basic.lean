/-
  TraceFold.Trace.Basic

  A compression trace as it was recorded: codecs, streams and function graphs in three
  tables, and the local parameters of codecs and graphs.  An identifier is a position
  in its table.  Nothing is checked here.
-/

import TraceFold.Id.Basic

namespace TraceFold

/-- A local parameter that holds a number. -/
structure IntParam where
  id : Int
  value : Int
  deriving DecidableEq, Repr

/-- A local parameter whose bytes were copied into the trace. -/
structure CopyParam where
  id : Int
  size : Nat
  data : List Nat
  deriving DecidableEq, Repr

/-- A local parameter that was recorded by reference, without its bytes. -/
structure RefParam where
  id : Int
  size : Nat
  deriving DecidableEq, Repr

/-- The local parameters of a codec or a graph. -/
structure LocalParams where
  ints : List IntParam := []
  copies : List CopyParam := []
  refs : List RefParam := []
  deriving DecidableEq, Repr, Inhabited

namespace LocalParams

def size (p : LocalParams) : Nat :=
  p.ints.length + p.copies.length + p.refs.length

def isEmpty (p : LocalParams) : Bool :=
  p.ints.isEmpty && p.copies.isEmpty && p.refs.isEmpty

theorem isEmpty_iff_size (p : LocalParams) : p.isEmpty ↔ p.size = 0 := by
  simp [isEmpty, size, List.isEmpty_iff, and_assoc]

end LocalParams

structure CodecRecord where
  name : String
  isStandard : Bool := false
  typeId : Nat := 0
  headerSize : Nat := 0
  failure : Option String := none
  params : LocalParams := {}
  inputs : List StreamId := []
  outputs : List StreamId := []
  deriving DecidableEq, Repr, Inhabited

/-- A recorded stream.  Its codecs are hints only: the codecs' own lists decide. -/
structure StreamRecord where
  sourceHint : Option CodecId := none
  targetHint : Option CodecId := none
  typeTag : Nat := 0
  compressedSize : Nat := 0
  elementCount : Nat := 0
  elementWidth : Nat := 0
  /-- Percentage of the total compressed size. -/
  share : Float := 0
  outputIndex : Nat := 0
  deriving Repr, Inhabited

structure GraphRecord where
  kind : String
  name : String := ""
  failure : Option String := none
  params : LocalParams := {}
  codecs : List CodecId := []
  deriving DecidableEq, Repr, Inhabited

structure Trace where
  codecs : List CodecRecord := []
  streams : List StreamRecord := []
  graphs : List GraphRecord := []
  deriving Repr, Inhabited

end TraceFold
