/-
  TraceFold.Yaml.Cursor

  A place in a YAML text: what is left of it, the line and column where that starts, and
  how many octets lie before it.  The classes of characters that YAML tells apart are here
  too.  The end of the text counts as a line break where a token has to end.
-/

namespace TraceFold.Yaml

/-! ## Characters -/

/-- The characters that a YAML text may hold. -/
def isPrintable (c : Char) : Bool :=
  let n := c.toNat
  n = 0x9 || n = 0xA || n = 0xD || (0x20 ≤ n && n ≤ 0x7E) || n = 0x85
    || (0xA0 ≤ n && n ≤ 0xFFFD) || 0x10000 ≤ n

def isBlank (c : Char) : Bool :=
  c = ' ' || c = '\t'

def isBreak (c : Char) : Bool :=
  c = '\n' || c = '\r' || c = '\x85' || c = '\u2028' || c = '\u2029'

/-- The characters of anchors and tag handles. -/
def isWord (c : Char) : Bool :=
  c.isAlphanum || c = '_' || c = '-'

/-- What a line break stands for: a newline, but for the two Unicode separators. -/
def breakText (c : Char) : Char :=
  if c = '\u2028' || c = '\u2029' then c else '\n'

/-- The octets of a text. -/
def octetsOf (cs : List Char) : List UInt8 :=
  cs.flatMap String.utf8EncodeChar

/-! ## Places -/

/-- A place in a text.  Columns count characters. -/
structure Cursor where
  rest : List Char
  line : Nat := 0
  column : Nat := 0
  /-- How many octets of the text lie before it. -/
  octets : Nat := 0
  deriving Repr, Inhabited

namespace Cursor

def at? (c : Cursor) (n : Nat) : Option Char :=
  c.rest[n]?

def atEnd (c : Cursor) : Bool :=
  c.rest.isEmpty

def sees (c : Cursor) (x : Char) : Bool :=
  c.rest.head? == some x

def seesAny (c : Cursor) (test : Char → Bool) : Bool :=
  c.rest.head?.any test

/-- Whether a line break or the end is some places ahead. -/
def breaksAt (c : Cursor) (n : Nat) : Bool :=
  (c.at? n).all isBreak

/-- Whether a blank, a line break or the end is some places ahead. -/
def gapAt (c : Cursor) (n : Nat) : Bool :=
  (c.at? n).all fun x => isBlank x || isBreak x

/-- Some characters further on the same line. -/
def skipMany (c : Cursor) (n : Nat) : Cursor :=
  { c with
    rest := c.rest.drop n
    column := c.column + n
    octets := c.octets + (octetsOf (c.rest.take n)).length }

/-- One character further on the same line. -/
def skip (c : Cursor) : Cursor :=
  c.skipMany 1

/-- Behind a byte order mark, if one is the first character of the line. -/
def skipOrderMark (c : Cursor) : Cursor :=
  if c.column = 0 && c.sees '\ufeff' then c.skip else c

/-- Behind the line break that comes next. -/
def skipBreak (c : Cursor) : Cursor :=
  match c.rest with
  | '\r' :: '\n' :: _ => { c.skipMany 2 with line := c.line + 1, column := 0 }
  | _ :: _ => { c.skip with line := c.line + 1, column := 0 }
  | [] => c

/-- The characters of a class that come next, and the place behind them. -/
def takeWhile (c : Cursor) (test : Char → Bool) : List Char × Cursor :=
  let run := c.rest.takeWhile test
  (run, c.skipMany run.length)

/-- Behind the characters of a class that come next. -/
def skipWhile (c : Cursor) (test : Char → Bool) : Cursor :=
  (c.takeWhile test).2

/-- Behind the rest of the line, if only a comment is left of it. -/
def skipComment (c : Cursor) : Cursor :=
  if c.sees '#' then c.skipWhile fun x => !isBreak x else c

/-- Whether a document marker of three equal characters stands here. -/
def seesMarker (c : Cursor) (x : Char) : Bool :=
  c.column = 0 && c.rest.take 3 == [x, x, x] && c.gapAt 3

/-- Whether the start or the end of a document is marked here. -/
def seesDocumentMarker (c : Cursor) : Bool :=
  c.seesMarker '-' || c.seesMarker '.'

end Cursor

/-! ## Gaps -/

/-- Blanks and line breaks between two words. -/
structure Gap where
  /-- The blanks, if there is no line break. -/
  blanks : List Char := []
  /-- The line breaks, as what they stand for. -/
  breaks : List Char := []
  deriving Repr, Inhabited

namespace Gap

/-- What a gap leaves in a folded text: one line break becomes a space, and of several
    the first one is dropped. -/
def folded (g : Gap) : List Char :=
  match g.breaks with
  | [] => g.blanks
  | ['\n'] => [' ']
  | '\n' :: more => more
  | all => all

/-- Whether the gap reaches over the end of a line. -/
def isBroken (g : Gap) : Bool :=
  !g.breaks.isEmpty

end Gap

/-- The gap at the front of a text, and the place behind it.  Once a line has ended, a tab
    before the column `margin` is refused. -/
def scanGap (margin : Nat) : Nat → Cursor → Gap → Option (Gap × Cursor)
  | 0, c, g => some (g, c)
  | steps + 1, c, g =>
    match c.rest with
    | [] => some (g, c)
    | x :: _ =>
      if isBlank x then
        if g.isBroken then
          if x = '\t' && c.column < margin then none else scanGap margin steps c.skip g
        else scanGap margin steps c.skip { g with blanks := g.blanks ++ [x] }
      else if isBreak x then
        scanGap margin steps c.skipBreak { blanks := [], breaks := g.breaks ++ [breakText x] }
      else some (g, c)

/-- The gap here, with the same rule for tabs. -/
def Cursor.gap (c : Cursor) (margin : Nat) : Option (Gap × Cursor) :=
  scanGap margin c.rest.length c {}

end TraceFold.Yaml
