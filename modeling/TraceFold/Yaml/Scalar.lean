/-
  TraceFold.Yaml.Scalar

  The five ways of writing a scalar: plain, in single or double quotes, and as a block
  of lines that is kept or folded.  Each scanner gives the text that the scalar denotes
  and the place behind it, or nothing if the scalar is malformed.
-/

import TraceFold.Yaml.Cursor

namespace TraceFold.Yaml

/-- How a scalar is written. -/
inductive Style where
  | plain
  | single
  | double
  | literal
  | folded
  deriving DecidableEq, Repr, Inhabited

/-! ## Plain scalars -/

/-- The characters that end a plain scalar between brackets. -/
def isFlowIndicator (c : Char) : Bool :=
  c = ',' || c = '[' || c = ']' || c = '\x7b' || c = '\x7d'

/-- A word of a plain scalar.  It ends before a gap, before a colon that a gap follows,
    and between brackets before their indicators; a colon may not stand right before one
    of these. -/
def scanWord (inFlow : Bool) : Nat → Cursor → List Char → Option (List Char × Cursor)
  | 0, c, done => some (done.reverse, c)
  | steps + 1, c, done =>
    match c.rest with
    | [] => some (done.reverse, c)
    | x :: _ =>
      if isBlank x || isBreak x then some (done.reverse, c)
      else if inFlow && x = ':' && (c.at? 1).any (fun y => isFlowIndicator y || y = '?') then none
      else if (x = ':' && c.gapAt 1) || (inFlow && isFlowIndicator x) then some (done.reverse, c)
      else scanWord inFlow steps c.skip (x :: done)

/-- The words of a plain scalar from here on, each behind what its gap leaves.  Outside of
    brackets every line of the scalar is indented to `margin`.  Also tells whether the
    scalar reached over the end of a line. -/
def scanWords (inFlow : Bool) (margin : Nat) :
    Nat → Cursor → List Char → Gap → Option (List Char × Bool × Cursor)
  | 0, c, done, g => some (done, g.isBroken, c)
  | steps + 1, c, done, g =>
    if c.seesDocumentMarker || c.sees '#' then some (done, g.isBroken, c)
    else
      match scanWord inFlow c.rest.length c [] with
      | none => none
      | some ([], c) =>
        -- a gap that nothing follows belongs to no word
        some (done, g.isBroken, c)
      | some (word, c) =>
        let done := done ++ g.folded ++ word
        match c.gap margin with
        | none => none
        | some (g, c') =>
          if g.blanks.isEmpty && !g.isBroken then some (done, false, c)
          else if !inFlow && c'.column < margin then some (done, g.isBroken, c')
          else scanWords inFlow margin steps c' done g

/-- A plain scalar; also tells whether it reached over the end of a line. -/
def scanPlain (inFlow : Bool) (margin : Nat) (c : Cursor) : Option (List Char × Bool × Cursor) :=
  scanWords inFlow margin (c.rest.length + 1) c [] {}

/-! ## Quoted scalars -/

/-- The characters that a backslash and a single character stand for in double quotes. -/
def shortEscape? : Char → Option Char
  | '0' => some '\x00'
  | 'a' => some '\x07'
  | 'b' => some '\x08'
  | 't' => some '\t'
  | '\t' => some '\t'
  | 'n' => some '\n'
  | 'v' => some '\x0b'
  | 'f' => some '\x0c'
  | 'r' => some '\r'
  | 'e' => some '\x1b'
  | ' ' => some ' '
  | '"' => some '"'
  | '/' => some '/'
  | '\\' => some '\\'
  | 'N' => some '\x85'
  | '_' => some '\xa0'
  | 'L' => some '\u2028'
  | 'P' => some '\u2029'
  | _ => none

/-- How many hexadecimal digits follow the letter of an escape. -/
def escapeLength? : Char → Option Nat
  | 'x' => some 2
  | 'u' => some 4
  | 'U' => some 8
  | _ => none

/-- The value of a hexadecimal digit, in either case. -/
def hexValue? (c : Char) : Option Nat :=
  if c.isDigit then some (c.toNat - '0'.toNat)
  else if 'a' ≤ c && c ≤ 'f' then some (c.toNat - 'a'.toNat + 10)
  else if 'A' ≤ c && c ≤ 'F' then some (c.toNat - 'A'.toNat + 10)
  else none

def hexNumber? (cs : List Char) : Option Nat :=
  cs.foldlM (fun n c => (hexValue? c).map (n * 16 + ·)) 0

/-- The character of a number, unless the number is none of a character. -/
def charOfNumber? (n : Nat) : Option Char :=
  if n.isValidChar then some (Char.ofNat n) else none

/-- The character behind a backslash, which comes next. -/
def scanEscape (c : Cursor) : Option (Char × Cursor) := do
  let letter ← c.at? 1
  match escapeLength? letter with
  | none => (shortEscape? letter).map (·, c.skipMany 2)
  | some length =>
    let run := (c.rest.drop 2).take length
    if run.length = length then
      let n ← hexNumber? run
      let x ← charOfNumber? n
      pure (x, c.skipMany (2 + length))
    else none

/-- A word between quotes up to a gap, to the closing quote, or to a backslash at the end
    of a line. -/
def scanQuotedWord (double : Bool) : Nat → Cursor → List Char → Option (List Char × Cursor)
  | 0, c, done => some (done.reverse, c)
  | steps + 1, c, done =>
    match c.rest with
    | [] => some (done.reverse, c)
    | x :: _ =>
      if isBlank x || isBreak x then some (done.reverse, c)
      else if double then
        if x = '"' then some (done.reverse, c)
        else if x = '\\' then
          if (c.at? 1).any isBreak then some (done.reverse, c)
          else
            match scanEscape c with
            | none => none
            | some (y, c) => scanQuotedWord double steps c (y :: done)
        else scanQuotedWord double steps c.skip (x :: done)
      else if x = '\'' then
        if c.at? 1 = some '\'' then scanQuotedWord double steps (c.skipMany 2) ('\'' :: done)
        else some (done.reverse, c)
      else scanQuotedWord double steps c.skip (x :: done)

/-- The words of a quoted scalar from behind its opening quote on.  A backslash at the end
    of a line takes the line break away. -/
def scanQuotedWords (double : Bool) : Nat → Cursor → List Char → Option (List Char × Cursor)
  | 0, _, _ => none
  | steps + 1, c, done =>
    if c.seesDocumentMarker then none
    else
      match scanQuotedWord double c.rest.length c [] with
      | none => none
      | some (word, c) =>
        let done := done ++ word
        match c.rest with
        | [] => none
        | '\\' :: _ =>
          match c.skip.gap 0 with
          | none => none
          | some (g, c) => scanQuotedWords double steps c (done ++ g.breaks.drop 1)
        | x :: _ =>
          if isBlank x || isBreak x then
            match c.gap 0 with
            | none => none
            | some (g, c) => scanQuotedWords double steps c (done ++ g.folded)
          else some (done, c.skip)

/-- A scalar in quotes, from its opening quote on. -/
def scanQuoted (double : Bool) (c : Cursor) : Option (List Char × Cursor) :=
  scanQuotedWords double (c.rest.length + 1) c.skip []

/-! ## Block scalars -/

/-- What happens to the line breaks at the end of a block. -/
inductive Chomping where
  | strip
  | clip
  | keep
  deriving DecidableEq, Repr

/-- The signs behind the mark of a block: how it ends, and by how much it is indented, in
    either order. -/
def scanHeader (c : Cursor) : Option (Chomping × Option Nat × Cursor) :=
  let chomping? (c : Cursor) : Option Chomping :=
    if c.sees '+' then some .keep else if c.sees '-' then some .strip else none
  let digit? (c : Cursor) : Option Nat := (c.rest.head?.filter Char.isDigit).map fun x =>
    x.toNat - '0'.toNat
  let (signs, c) : (Option Chomping × Option Nat) × Cursor :=
    match chomping? c, digit? c with
    | some m, _ =>
      match digit? c.skip with
      | some n => ((some m, some n), c.skipMany 2)
      | none => ((some m, none), c.skip)
    | none, some n =>
      match chomping? c.skip with
      | some m => ((some m, some n), c.skipMany 2)
      | none => ((none, some n), c.skip)
    | none, none => ((none, none), c)
  if signs.2 = some 0 then none
  else
    let c := (c.skipWhile isBlank).skipComment
    if c.breaksAt 0 then some (signs.1.getD .clip, signs.2, c.skipBreak) else none

/-- The empty lines of a block.  Gives their line breaks, the place of the next line's
    text, and the widest column reached.  With a known indentation, spaces are skipped up
    to it; a tab before it is refused. -/
def scanEmptyLines (indent : Option Nat) :
    Nat → Cursor → List Char → Nat → Option (List Char × Nat × Cursor)
  | 0, c, breaks, widest => some (breaks, widest, c)
  | steps + 1, c, breaks, widest =>
    let spaces := (c.rest.takeWhile (· = ' ')).length
    let c := c.skipMany (match indent with
      | some n => min spaces (n - c.column)
      | none => spaces)
    let widest := max widest c.column
    if c.sees '\t' && indent.all (c.column < ·) then none
    else
      match c.rest with
      | x :: _ =>
        if isBreak x then scanEmptyLines indent steps c.skipBreak (breaks ++ [breakText x]) widest
        else some (breaks, widest, c)
      | [] => some (breaks, widest, c)

/-- What is put between two lines of a block.  A folded line break between two lines that
    do not start with a blank becomes a space, or nothing before empty lines. -/
def lineJoin (keepsLines : Bool) (lineBreak empty : List Char) (afterBlank beforeBlank : Bool) :
    List Char :=
  if !keepsLines && lineBreak == ['\n'] && !afterBlank && !beforeBlank then
    (if empty.isEmpty then [' '] else []) ++ empty
  else lineBreak ++ empty

/-- The lines of a block that are indented to a column, from the text of one on.  Gives the
    text, the break behind its last line, and the breaks of the empty lines after that. -/
def scanLines (keepsLines : Bool) (indent : Nat) :
    Nat → Cursor → (done lineBreak empty : List Char) → Bool →
      Option (List Char × List Char × List Char × Cursor)
  | 0, c, done, lineBreak, empty, _ => some (done, lineBreak, empty, c)
  | steps + 1, c, done, lineBreak, empty, afterBlank =>
    if c.column = indent && !c.atEnd then
      let blank := c.seesAny isBlank
      let done := done ++ lineJoin keepsLines lineBreak empty afterBlank blank
      let (line, c) := c.takeWhile fun x => !isBreak x
      let lineBreak := (c.rest.head?.map breakText).toList
      match scanEmptyLines (some indent) (c.rest.length + 1) c.skipBreak [] 0 with
      | none => none
      | some (empty, _, c) =>
        scanLines keepsLines indent steps c (done ++ line) lineBreak empty blank
    else some (done, lineBreak, empty, c)

/-- A block scalar, from its mark on, inside a collection of an indentation. -/
def scanBlock (keepsLines : Bool) (outer : Int) (c : Cursor) : Option (List Char × Cursor) := do
  let (chomping, increment, c) ← scanHeader c.skip
  let given := increment.map fun n => (if 0 ≤ outer then outer else 0).toNat + n
  let (empty, widest, c) ← scanEmptyLines given (c.rest.length + 1) c [] 0
  let indent := given.getD (max widest (max (outer + 1).toNat 1))
  let (text, lineBreak, empty, c) ←
    scanLines keepsLines indent (c.rest.length + 1) c [] [] empty false
  let ending := match chomping with
    | .strip => []
    | .clip => lineBreak
    | .keep => lineBreak ++ empty
  pure (text ++ ending, c)

end TraceFold.Yaml
