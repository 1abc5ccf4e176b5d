/-
  TraceFold.Number.Decimal

  The double that a decimal number is read as.  It is reached in steps that each round
  once: the leading digits that a word of 64 bits holds become a double, and that is
  multiplied or divided by the double nearest to a power of ten.  So it may differ in
  the last bit from the double nearest to the number.
-/

import TraceFold.Text.Decimal

namespace TraceFold.Number

/-- How many digits a number loses at its end until 64 bits hold it.  Twenty digits or
    fewer lose one at most. -/
def surplus (n : Nat) : Nat :=
  let excess := (Text.digits n).length - 20
  if n / Nat.pow 10 excess < UInt64.size then excess else excess + 1

/-- The leading digits of a decimal number that 64 bits hold, and the power of ten that
    goes with them.  Of the digits before the point as many are taken as fit; then those
    behind it follow as long as they fit. -/
def leading (digits places : Nat) : Nat × Int :=
  let whole := digits / Nat.pow 10 places
  let lost := surplus whole
  -- the digits behind the point follow those that are left in front of it
  let rest := whole / Nat.pow 10 lost * Nat.pow 10 places + digits % Nat.pow 10 places
  let cut := surplus rest
  (rest / Nat.pow 10 cut, (lost + cut : Nat) - (places : Int))

/-- The double nearest to a power of ten. -/
def tenTo (power : Nat) : Float :=
  Float.ofScientific 1 false power

/-- A double below `2 ^ 64` times a power of ten; nothing if that is out of range.  A
    power of ten that is itself out of range is divided by in two steps, and more than
    two steps leave nothing. -/
def scaled? (x : Float) (power : Int) : Option Float :=
  if 308 < power then
    if x == 0 then some x else none
  else if 0 ≤ power then
    let y := x * tenTo power.toNat
    if y.isFinite then some y else none
  else
    let down := (-power).toNat
    if down ≤ 308 then some (x / tenTo down)
    else some (x / tenTo 308 / tenTo (min (down - 308) 308))

/-- The double that a decimal number with some places behind the point, times a power of
    ten, is read as; nothing if it is out of range. -/
def ofDecimal? (negative : Bool) (digits places : Nat) (power : Int) : Option Float :=
  let (word, below) := leading digits places
  (scaled? (Float.ofNat word) (below + power)).map fun x => if negative then -x else x

/-- A third of a hundred, whose seventeen digits are rounded before the division. -/
example : (ofDecimal? false 33333333333333336 15 0).map Float.toBits
    = some 0x4040aaaaaaaaaaab := by decide +kernel

/-- Two hundred thirteenths, which end up one step below the nearest double. -/
example : (ofDecimal? false 15384615384615385 15 0).map Float.toBits
    = some 0x402ec4ec4ec4ec4e := by decide +kernel

end TraceFold.Number
