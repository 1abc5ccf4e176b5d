/-
  TraceFold.Text.Decimal

  Natural numbers in decimal: the digits of a number, and the reading of a run of
  digits.  Reading the digits of a number gives the number back.
-/

namespace TraceFold.Text

/-- The decimal digits of a number, without leading zeros. -/
def digits (n : Nat) : List Char :=
  Nat.toDigits 10 n

/-- The value of a run of ASCII digits; an empty run has none. -/
def ofDigits? (cs : List Char) : Option Nat :=
  if !cs.isEmpty && cs.all Char.isDigit then some (Nat.ofDigitChars 10 cs 0) else none

/-- The value of a run of ASCII digits that one plus sign may precede. -/
def ofSignedDigits? : List Char → Option Nat
  | '+' :: cs => ofDigits? cs
  | cs => ofDigits? cs

theorem digits_ne_nil (n : Nat) : digits n ≠ [] :=
  Nat.toDigits_ne_nil

theorem isDigit_of_mem_digits {n : Nat} {c : Char} (h : c ∈ digits n) : c.isDigit :=
  Nat.isDigit_of_mem_toDigits (by decide) (by decide) h

/-- The digits of a number are read as the number. -/
theorem ofDigits?_digits (n : Nat) : ofDigits? (digits n) = some n := by
  have hall : ∀ c ∈ digits n, c.isDigit := fun _ hc => isDigit_of_mem_digits hc
  simp only [ofDigits?, List.all_eq_true.2 hall, List.isEmpty_eq_false_iff.2 (digits_ne_nil n)]
  simp [digits, Nat.ofDigitChars_toDigits]

/-- They are so too where a sign may stand in front. -/
theorem ofSignedDigits?_digits (n : Nat) : ofSignedDigits? (digits n) = some n := by
  unfold ofSignedDigits?
  split
  · next cs h =>
    have : ('+' : Char).isDigit := isDigit_of_mem_digits (n := n) (by simp [h])
    simp at this
  · exact ofDigits?_digits n

end TraceFold.Text
