/-
  TraceFold.Yaml.Token

  The tokens of a YAML text.  Collections that are written by indentation have tokens
  for their start and end as well, so that what follows needs no columns.  The address of
  a tag is kept as octets: escapes in it have the shape of encoded characters, but need
  not denote any.
-/

import TraceFold.Yaml.Scalar

namespace TraceFold.Yaml

inductive Token where
  | versionDirective (major minor : Nat)
  | tagDirective (handle : List Char) (lead : List UInt8)
  | documentStart
  | documentEnd
  | blockSequenceStart
  | blockMappingStart
  | blockEnd
  | flowSequenceStart
  | flowSequenceEnd
  | flowMappingStart
  | flowMappingEnd
  | blockEntry
  | flowEntry
  | key
  | value
  | alias (name : List Char)
  | anchor (name : List Char)
  | tag (handle : List Char) (suffix : List UInt8)
  | scalar (style : Style) (text : List Char)
  deriving DecidableEq, Repr, Inhabited

/-! ## Names -/

/-- The name of an anchor or an alias, from its mark on. -/
def scanName (c : Cursor) : Option (List Char × Cursor) :=
  let (name, c) := c.skip.takeWhile isWord
  let ends := c.gapAt 0 || c.seesAny fun x =>
    x = '?' || x = ':' || x = ',' || x = ']' || x = '\x7d' || x = '%' || x = '@' || x = '\x60'
  if name.isEmpty || !ends then none else some (name, c)

/-! ## Tags -/

/-- The characters of a tag's address; inside angle brackets there are some more. -/
def isAddress (verbatim : Bool) (c : Char) : Bool :=
  isWord c || [';', '/', '?', ':', '@', '&', '=', '+', '$', '.', '%', '!', '~', '*', '\'', '(',
    ')'].contains c || (verbatim && [',', '[', ']'].contains c)

/-- The octet that a percent sign and two hexadecimal digits denote. -/
def octet? : List Char → Option (UInt8 × List Char)
  | '%' :: a :: b :: rest => (hexNumber? [a, b]).map fun n => (UInt8.ofNat n, rest)
  | _ => none

/-- How many octets follow the first one of a character. -/
def followers? (first : UInt8) : Option Nat :=
  if first < 0x80 then some 0
  else if first < 0xC0 then none
  else if first < 0xE0 then some 1
  else if first < 0xF0 then some 2
  else if first < 0xF8 then some 3
  else none

/-- The escaped octets that follow the first one, each of which says so. -/
def following? : Nat → List Char → Option (List UInt8 × List Char)
  | 0, cs => some ([], cs)
  | more + 1, cs => do
    let (o, rest) ← octet? cs
    if 0x80 ≤ o && o < 0xC0 then
      let (os, rest) ← following? more rest
      pure (o :: os, rest)
    else none

/-- The octets of an address with its escapes taken away. -/
def unescaped : Nat → List Char → Option (List UInt8)
  | 0, _ => some []
  | _ + 1, [] => some []
  | steps + 1, '%' :: cs => do
    let (o, rest) ← octet? ('%' :: cs)
    let (os, rest) ← following? (← followers? o) rest
    let text ← unescaped steps rest
    pure (o :: os ++ text)
  | steps + 1, x :: cs => (unescaped steps cs).map (octetsOf [x] ++ ·)

/-- The octets of an address that count: a zero octet ends it. -/
def addressOf? (run : List Char) : Option (List UInt8) :=
  (unescaped run.length run).map fun os => os.takeWhile (· != 0)

/-- The address here, which is not empty. -/
def scanAddress (verbatim : Bool) (c : Cursor) : Option (List UInt8 × Cursor) := do
  let (run, c) := c.takeWhile (isAddress verbatim)
  if run.isEmpty then none else (addressOf? run).map (·, c)

/-- A tag handle here: words between exclamation marks, the second of which may be
    missing. -/
def scanHandle (c : Cursor) : Option (List Char × Cursor) :=
  if c.sees '!' then
    let (word, c) := c.skip.takeWhile isWord
    if c.sees '!' then some ('!' :: word ++ ['!'], c.skip) else some ('!' :: word, c)
  else none

/-- The handle and the suffix of a tag.  Without a second exclamation mark what looks like
    a handle belongs to the suffix. -/
def scanTagParts (c : Cursor) : Option ((List Char × List UInt8) × Cursor) :=
  if c.at? 1 = some '<' then do
    let (suffix, c) ← scanAddress true (c.skipMany 2)
    if c.sees '>' then pure (([], suffix), c.skip) else none
  else do
    let (handle, c) ← scanHandle c
    if 1 < handle.length && handle.getLast? = some '!' then
      let (suffix, c) ← scanAddress false c
      pure ((handle, suffix), c)
    else
      let (run, c) := c.takeWhile (isAddress false)
      let address ← addressOf? run
      match octetsOf (handle.drop 1) ++ address with
      | [] => pure (([], octetsOf ['!']), c)
      | suffix => pure ((['!'], suffix), c)

/-- A tag, which a gap follows. -/
def scanTag (inFlow : Bool) (c : Cursor) : Option (Token × Cursor) := do
  let ((handle, suffix), c) ← scanTagParts c
  if c.gapAt 0 || (inFlow && c.sees ',') then pure (.tag handle suffix, c) else none

/-! ## Directives -/

/-- A number of a version: at most nine digits. -/
def scanVersionNumber (c : Cursor) : Option (Nat × Cursor) :=
  let (run, c) := c.takeWhile Char.isDigit
  if run.isEmpty || 9 < run.length then none else some (Nat.ofDigitChars 10 run 0, c)

/-- The version that a directive gives. -/
def scanVersion (c : Cursor) : Option (Token × Cursor) := do
  let (major, c) ← scanVersionNumber (c.skipWhile isBlank)
  if c.sees '.' then
    let (minor, c) ← scanVersionNumber c.skip
    pure (.versionDirective major minor, c)
  else none

/-- The handle and what it stands for that a directive gives. -/
def scanTagMeaning (c : Cursor) : Option (Token × Cursor) := do
  let (handle, c) ← scanHandle (c.skipWhile isBlank)
  let isHandle := handle = ['!'] || (1 < handle.length && handle.getLast? = some '!')
  if isHandle && c.seesAny isBlank then
    let (lead, c) ← scanAddress true (c.skipWhile isBlank)
    if c.gapAt 0 then pure (.tagDirective handle lead, c) else none
  else none

/-- A directive, from its percent sign to the end of its line. -/
def scanDirective (c : Cursor) : Option (Token × Cursor) := do
  let (name, c) := c.skip.takeWhile isWord
  if !c.gapAt 0 then none
  else
    let (token, c) ←
      if name = ['Y', 'A', 'M', 'L'] then scanVersion c
      else if name = ['T', 'A', 'G'] then scanTagMeaning c
      else none
    let c := (c.skipWhile isBlank).skipComment
    if c.breaksAt 0 then pure (token, c.skipBreak) else none

end TraceFold.Yaml
