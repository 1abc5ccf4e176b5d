/-
  TraceFold.Settings.Basic

  The settings of a scene.
-/

namespace TraceFold

/-- What is done when a scene is set up, and how shares are written. -/
structure Settings where
  /-- Collapse the standard graphs at the start. -/
  collapseStandardGraphs : Bool := false
  /-- Mark the path of the largest streams. -/
  markLargestPath : Bool := true
  /-- Decimal places of shares in labels. -/
  sharePrecision : Nat := 2
  deriving DecidableEq, Repr, Inhabited

end TraceFold
