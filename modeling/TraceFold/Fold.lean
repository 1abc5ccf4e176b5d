/-
  TraceFold.Fold

  How a node of the picture is folded: whether it is shown, and whether it is
  collapsed.  The two are independent, so a node that is hidden keeps its collapse and
  has it again when it is shown.  Each move sets one of the two.
-/

namespace TraceFold

structure Fold where
  visible : Bool := true
  collapsed : Bool := false
  deriving DecidableEq, Repr, Inhabited

/-- A change of a fold. -/
inductive Move where
  | show
  | hide
  | collapse
  | expand
  deriving DecidableEq, Repr

namespace Fold

def apply (f : Fold) : Move → Fold
  | .show => { f with visible := true }
  | .hide => { f with visible := false }
  | .collapse => { f with collapsed := true }
  | .expand => { f with collapsed := false }

/-- The letter of a fold: a capital one for a node that is shown, for a hidden one
    `h` or, if it is collapsed, `c`. -/
def letter (f : Fold) : Char :=
  match f.visible, f.collapsed with
  | true, false => 'E'
  | true, true => 'C'
  | false, false => 'h'
  | false, true => 'c'

def ofLetter? : Char → Option Fold
  | 'E' => some ⟨true, false⟩
  | 'C' => some ⟨true, true⟩
  | 'h' => some ⟨false, false⟩
  | 'c' => some ⟨false, true⟩
  | _ => none

theorem ofLetter?_letter (f : Fold) : ofLetter? f.letter = some f := by
  obtain ⟨_ | _, _ | _⟩ := f <;> rfl

/-- A second move of the same kind changes nothing. -/
theorem apply_apply_self (f : Fold) (m : Move) : (f.apply m).apply m = f.apply m := by
  cases m <;> rfl

end Fold

def Move.ofWord? : String → Option Move
  | "show" => some .show
  | "hide" => some .hide
  | "collapse" => some .collapse
  | "expand" => some .expand
  | _ => none

end TraceFold
