/-
  TraceFold.Json.Basic

  JSON values as they are written.  Numbers keep their exact decimal value and the
  form they were written in, and a string whose escapes name half of a surrogate
  pair is kept as a string without a text: such a string may be skipped, but not
  read.
-/

import TraceFold.Number.Binary64
import TraceFold.Number.Decimal

namespace TraceFold

/-- A number as written. -/
structure Numeral where
  negative : Bool
  /-- Its digits, before and behind the point. -/
  digits : Nat
  /-- How many of the digits stand behind the point. -/
  places : Nat := 0
  /-- The power of ten behind the digits, if one is written. -/
  exponent : Option Int := none
  deriving DecidableEq, Repr

namespace Numeral

def ofNat (n : Nat) : Numeral :=
  { negative := false, digits := n }

def ofInt (n : Int) : Numeral :=
  { negative := n < 0, digits := n.natAbs }

/-- Whether a number is written without fraction and exponent. -/
def isWhole (n : Numeral) : Bool :=
  n.places == 0 && n.exponent.isNone

/-- The integer that a number is written as.  A zero with a minus sign is not the
    integer form of any integer. -/
def int? (n : Numeral) : Option Int :=
  if !n.isWhole then none
  else if !n.negative then some n.digits
  else if n.digits = 0 then none
  else some (-n.digits)

/-- The double that a number is read as, unless that is out of range. -/
def float? (n : Numeral) : Option Float :=
  Number.ofDecimal? n.negative n.digits n.places (n.exponent.getD 0)

/-- The exact decimal value of a finite double. -/
def ofBinary64? : Number.Binary64 → Option Numeral
  | .finite negative significand power =>
    let places := (-power).toNat
    some { negative, digits := (significand <<< power.toNat) * Nat.pow 5 places, places }
  | _ => none

theorem int?_ofInt (n : Int) : (ofInt n).int? = some n := by
  by_cases h : n < 0
  · have hne : n.natAbs ≠ 0 := by omega
    have hneg : -(n.natAbs : Int) = n := by omega
    simp only [ofInt, int?, isWhole, h, decide_true, BEq.rfl, Option.isNone_none, Bool.and_self,
      Bool.not_true, Bool.false_eq_true, ↓reduceIte, hne, hneg]
  · have hpos : (n.natAbs : Int) = n := by omega
    simp only [ofInt, int?, isWhole, h, decide_false, BEq.rfl, Option.isNone_none, Bool.and_self,
      Bool.not_true, Bool.not_false, Bool.false_eq_true, ↓reduceIte, hpos]

end Numeral

/-- A JSON value.  The text of a string, and the name of a member, is absent if its
    escapes do not denote a text. -/
inductive Json where
  | null
  | bool (value : Bool)
  | number (value : Numeral)
  | string (text : Option String)
  | array (items : List Json)
  | object (members : List (Option String × Json))
  deriving Inhabited

namespace Json

def ofString (s : String) : Json :=
  .string (some s)

def ofNat (n : Nat) : Json :=
  .number (.ofNat n)

def ofInt (n : Int) : Json :=
  .number (.ofInt n)

/-- The exact value of a double, `null` for one that is not finite. -/
def ofFloat (x : Float) : Json :=
  match Numeral.ofBinary64? (.ofFloat x) with
  | some n => .number n
  | none => .null

/-- The array of a list, item by item. -/
def ofList {α : Type} (item : α → Json) (xs : List α) : Json :=
  .array (xs.map item)

/-- The value of an optional thing, `null` where there is none. -/
def ofOption {α : Type} (item : α → Json) : Option α → Json
  | none => .null
  | some x => item x

/-- The object with these members, in this order. -/
def ofMembers (members : List (String × Json)) : Json :=
  .object (members.map fun (name, value) => (some name, value))

/-! ## Reading single values -/

def bool? : Json → Option Bool
  | .bool b => some b
  | _ => none

/-- A string that denotes a text. -/
def text? : Json → Option String
  | .string t => t
  | _ => none

def int? : Json → Option Int
  | .number n => n.int?
  | _ => none

/-- A number written as an integer from `low` to `high`. -/
def intWithin? (low high : Int) (j : Json) : Option Int :=
  j.int?.filter fun n => low ≤ n && n ≤ high

/-- A number written as a natural number below `2 ^ bits`. -/
def word? (bits : Nat) (j : Json) : Option Nat :=
  (j.intWithin? 0 ((1 <<< bits : Nat) - 1)).map Int.toNat

/-- A number written as an integer of `bits` bits in two's complement. -/
def signedWord? (bits : Nat) (j : Json) : Option Int :=
  let half : Nat := 1 <<< (bits - 1)
  j.intWithin? (-half) (half - 1)

def float? : Json → Option Float
  | .number n => n.float?
  | _ => none

/-- An array, each of whose items can be read. -/
def list? {α : Type} (item? : Json → Option α) : Json → Option (List α)
  | .array items => items.mapM item?
  | _ => none

/-- Something that can be read, or `null` for nothing. -/
def option? {α : Type} (item? : Json → Option α) : Json → Option (Option α)
  | .null => some none
  | j => (item? j).map some

theorem text?_ofString (s : String) : (ofString s).text? = some s := rfl

theorem int?_ofInt (n : Int) : (ofInt n).int? = some n := Numeral.int?_ofInt n

theorem list?_ofList {α : Type} {write : α → Json} {item? : Json → Option α}
    (h : ∀ x, item? (write x) = some x) (xs : List α) :
    (ofList write xs).list? item? = some xs := by
  simp only [ofList, list?, List.mapM_map]
  induction xs with
  | nil => rfl
  | cons x xs ih => simp [h, ih]

/-! ## Values that are read in full -/

/-- Whether a number is an integer of 64 bits, with or without a sign, or else has a double
    that it is read as. -/
def isNumberInRange (n : Numeral) : Bool :=
  ((number n).word? 64).isSome || ((number n).signedWord? 64).isSome || n.float?.isSome

mutual

/-- Whether a value has at most `depth` containers inside one another, every string
    and member name in it denotes a text, and no number in it is out of range. -/
def isReadable (depth : Nat) : Json → Bool
  | .null => true
  | .bool _ => true
  | .number n => isNumberInRange n
  | .string t => t.isSome
  | .array items => depth != 0 && itemsReadable (depth - 1) items
  | .object members => depth != 0 && membersReadable (depth - 1) members

/-- `isReadable` for each item of an array. -/
def itemsReadable (depth : Nat) : List Json → Bool
  | [] => true
  | j :: rest => isReadable depth j && itemsReadable depth rest

/-- `isReadable` for each name and value of an object. -/
def membersReadable (depth : Nat) : List (Option String × Json) → Bool
  | [] => true
  | (name, j) :: rest => name.isSome && isReadable depth j && membersReadable depth rest

end

end Json

end TraceFold
