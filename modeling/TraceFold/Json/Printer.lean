/-
  TraceFold.Json.Printer

  JSON values as text, in one line or indented by two spaces a level.  The two differ
  only in the blanks between tokens, which a `Layout` gives.  In strings the quote,
  the backslash and the control characters below U+0020 are escaped and nothing else.
-/

import TraceFold.Json.Basic
import TraceFold.Number.FixedPlaces

namespace TraceFold.Json

/-- The blanks between the tokens of a text. -/
structure Layout where
  /-- Before an item, and before the closing of a container, at a depth. -/
  lineBreak : Nat → List Char
  /-- Behind the colon of a member. -/
  afterColon : List Char

def Layout.compact : Layout :=
  ⟨fun _ => [], []⟩

/-- One item a line, two spaces a level. -/
def Layout.indented : Layout :=
  ⟨fun depth => '\n' :: List.replicate (2 * depth) ' ', [' ']⟩

/-- The hexadecimal digit of a number below 16, in lower case. -/
def hexDigit (n : Nat) : Char :=
  Nat.digitChar n

/-- A character as it stands between the quotes of a string. -/
def escape (c : Char) : List Char :=
  if c = '"' then ['\\', '"']
  else if c = '\\' then ['\\', '\\']
  else if c = '\x08' then ['\\', 'b']
  else if c = '\x0c' then ['\\', 'f']
  else if c = '\n' then ['\\', 'n']
  else if c = '\r' then ['\\', 'r']
  else if c = '\t' then ['\\', 't']
  else if c.toNat < 0x20 then
    ['\\', 'u', '0', '0', hexDigit (c.toNat / 16), hexDigit (c.toNat % 16)]
  else [c]

/-- A string in quotes.  One without a text is written as half of a surrogate pair. -/
def quote : Option String → List Char
  | some s => '"' :: (s.toList.flatMap escape ++ ['"'])
  | none => ['"', '\\', 'u', 'd', '8', '0', '0', '"']

/-- A number: its sign, its digits with the point among them, and the power of ten if one
    is given. -/
def numeralChars (n : Numeral) : List Char :=
  let power := match n.exponent with
    | none => []
    | some e => 'e' :: (if e < 0 then ['-'] else []) ++ Text.digits e.natAbs
  (if n.negative then ['-'] else []) ++ Number.placed n.places n.digits ++ power

mutual

/-- The text of a value whose containers open at a depth. -/
def chars (layout : Layout) (depth : Nat) : Json → List Char
  | .null => ['n', 'u', 'l', 'l']
  | .bool true => ['t', 'r', 'u', 'e']
  | .bool false => ['f', 'a', 'l', 's', 'e']
  | .number n => numeralChars n
  | .string t => quote t
  | .array [] => ['[', ']']
  | .array (j :: rest) =>
    '[' :: layout.lineBreak (depth + 1) ++ chars layout (depth + 1) j
      ++ itemChars layout (depth + 1) rest ++ layout.lineBreak depth ++ [']']
  | .object [] => ['\x7b', '\x7d']
  | .object ((name, j) :: rest) =>
    '\x7b' :: layout.lineBreak (depth + 1) ++ quote name ++ ':' :: layout.afterColon
      ++ chars layout (depth + 1) j
      ++ memberChars layout (depth + 1) rest ++ layout.lineBreak depth ++ ['\x7d']

/-- The items behind the first one, each behind a comma. -/
def itemChars (layout : Layout) (depth : Nat) : List Json → List Char
  | [] => []
  | j :: rest =>
    ',' :: layout.lineBreak depth ++ chars layout depth j ++ itemChars layout depth rest

/-- The members behind the first one, each behind a comma. -/
def memberChars (layout : Layout) (depth : Nat) : List (Option String × Json) → List Char
  | [] => []
  | (name, j) :: rest =>
    ',' :: layout.lineBreak depth ++ quote name ++ ':' :: layout.afterColon
      ++ chars layout depth j ++ memberChars layout depth rest

end

def compact (j : Json) : String :=
  String.ofList (j.chars .compact 0)

def indented (j : Json) : String :=
  String.ofList (j.chars .indented 0)

end TraceFold.Json
