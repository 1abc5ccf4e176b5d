/-
  TraceFold.Number.Binary64

  The exact side of double-precision numbers: the significand and the power of two
  that a bit pattern stands for, and division rounded half to even.  All of it is
  arithmetic on natural numbers.
-/

namespace TraceFold.Number

/-- The quotient rounded to the nearest natural number, a half to the even one. -/
def roundDiv (num den : Nat) : Nat :=
  let low := num / den
  let twice := 2 * (num % den)
  if twice < den then low
  else if den < twice then low + 1
  else if low % 2 = 0 then low
  else low + 1

/-- What a bit pattern of 64 bits stands for. -/
inductive Binary64 where
  | nan
  | infinite (negative : Bool)
  /-- The number `significand * 2 ^ power`, with a sign that a zero has too. -/
  | finite (negative : Bool) (significand : Nat) (power : Int)
  deriving DecidableEq, Repr

namespace Binary64

/-- Reads the fields of a bit pattern. -/
def ofBits (bits : Nat) : Binary64 :=
  let negative := (bits >>> 63) % 2 = 1
  let exponent : Nat := (bits >>> 52) % (1 <<< 11)
  let fraction : Nat := bits % (1 <<< 52)
  if exponent = 2047 then
    if fraction = 0 then .infinite negative else .nan
  else if exponent = 0 then .finite negative fraction (-1074)
  else .finite negative ((1 <<< 52) + fraction) ((exponent : Int) - 1075)

/-- What a double stands for. -/
def ofFloat (x : Float) : Binary64 :=
  ofBits x.toBits.toNat

end Binary64

end TraceFold.Number
