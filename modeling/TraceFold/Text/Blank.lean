/-
  TraceFold.Text.Blank

  The characters that count as blank, and the removal of blanks at both ends of a
  text.  The class is the Unicode property White_Space, so it also holds the
  no-break spaces, the typographic spaces and the line and paragraph separators.
-/

namespace TraceFold.Text

/-- The ranges of code points that have the property White_Space. -/
def blankRanges : List (Nat × Nat) :=
  [(0x9, 0xD), (0x20, 0x20), (0x85, 0x85), (0xA0, 0xA0), (0x1680, 0x1680), (0x2000, 0x200A),
    (0x2028, 0x2029), (0x202F, 0x202F), (0x205F, 0x205F), (0x3000, 0x3000)]

/-- A blank is a character with the property White_Space. -/
def isBlank (c : Char) : Bool :=
  blankRanges.any fun (low, high) => low ≤ c.toNat && c.toNat ≤ high

/-- The property White_Space has 25 characters. -/
example : (blankRanges.map fun (low, high) => high + 1 - low).sum = 25 := by decide

/-- A text without the blanks at its two ends. -/
def trim (cs : List Char) : List Char :=
  ((cs.dropWhile isBlank).reverse.dropWhile isBlank).reverse

end TraceFold.Text
