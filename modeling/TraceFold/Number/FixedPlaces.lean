/-
  TraceFold.Number.FixedPlaces

  Numbers written with a fixed number of decimal places.  The exact value of the
  double is rounded, a half to the even neighbour, and the sign is kept even if every
  digit is zero.
-/

import TraceFold.Number.Binary64
import TraceFold.Text.Decimal

namespace TraceFold.Number

/-- The decimal digits of a number, filled up with zeros from the left to a length. -/
def paddedDigits (length n : Nat) : List Char :=
  let run := Text.digits n
  List.replicate (length - run.length) '0' ++ run

/-- A count of units of the last place, written with the point before that many
    places.  Without places there is no point. -/
def placed (places n : Nat) : List Char :=
  if places = 0 then Text.digits n
  else
    let run := paddedDigits (places + 1) n
    run.take (run.length - places) ++ '.' :: run.drop (run.length - places)

/-- How many units of the last place make up a number, rounded half to even. -/
def unitsOf (places significand : Nat) (power : Int) : Nat :=
  if 0 ≤ power then (significand <<< power.toNat) * Nat.pow 10 places
  else roundDiv (significand * Nat.pow 10 places) (1 <<< (-power).toNat)

/-- A number written with a fixed number of places. -/
def Binary64.fixed (places : Nat) : Binary64 → List Char
  | .nan => ['N', 'a', 'N']
  | .infinite negative => (if negative then ['-'] else []) ++ ['i', 'n', 'f']
  | .finite negative significand power =>
    (if negative then ['-'] else []) ++ placed places (unitsOf places significand power)

/-- A double written with a fixed number of places. -/
def fixed (places : Nat) (x : Float) : String :=
  String.ofList ((Binary64.ofFloat x).fixed places)

/-- A quarter has a tie at one place, which goes to the even digit. -/
example : (Binary64.finite false 1 (-2)).fixed 1 = ['0', '.', '2'] := by decide

/-- Three quarters have a tie at one place too, which goes up to the even digit. -/
example : (Binary64.finite true 3 (-2)).fixed 1 = ['-', '0', '.', '8'] := by decide

end TraceFold.Number
