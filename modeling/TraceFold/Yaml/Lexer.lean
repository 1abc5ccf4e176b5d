/-
  TraceFold.Yaml.Lexer

  A YAML text taken apart into tokens.  Indentation is turned into tokens on the way: a
  deeper column opens a block collection, a shallower one closes those it leaves.  A
  key without a mark of its own is only known as one at the colon behind it, so the
  last place where a key may have started is kept for each level of brackets, and the
  token for the key is put there afterwards.
-/

import TraceFold.Yaml.Token

namespace TraceFold.Yaml

/-- A place where a key may have started. -/
structure PossibleKey where
  /-- The key has to be one: nothing else can start at its column. -/
  required : Bool
  /-- How many tokens there are before it. -/
  place : Nat
  line : Nat
  column : Nat
  octets : Nat
  deriving Repr, Inhabited

/-- A text that has been taken apart up to a place. -/
structure Lexer where
  cursor : Cursor
  tokens : Array Token := #[]
  /-- The column of the innermost block collection, -1 outside of all. -/
  indent : Int := -1
  /-- The columns of the block collections around it. -/
  outer : List Int := []
  /-- Where a key may have started outside of brackets, or in the innermost ones. -/
  key : Option PossibleKey := none
  /-- The same for the brackets around these, the innermost first. -/
  outerKeys : List (Option PossibleKey) := []
  /-- Whether a key may start here. -/
  keyAllowed : Bool := true
  deriving Inhabited

namespace Lexer

/-- Whether brackets are open. -/
def inFlow (l : Lexer) : Bool :=
  !l.outerKeys.isEmpty

def emit (l : Lexer) (t : Token) : Lexer :=
  { l with tokens := l.tokens.push t }

def emitAt (l : Lexer) (place : Nat) (t : Token) : Lexer :=
  { l with tokens := (l.tokens.take place).push t ++ l.tokens.drop place }

/-! ## Indentation -/

/-- Opens a block collection at a column, if that is deeper than the innermost one. -/
def openBlock (l : Lexer) (column place : Nat) (t : Token) : Lexer :=
  if !l.inFlow && l.indent < column then
    { l.emitAt place t with indent := column, outer := l.indent :: l.outer }
  else l

/-- Closes the block collections that are deeper than a column. -/
def closeBlocks (l : Lexer) (column : Int) : Lexer :=
  if l.inFlow then l
  else
    let closed := (l.indent :: l.outer).takeWhile (column < ·)
    let left := (l.indent :: l.outer).dropWhile (column < ·)
    { l with
      tokens := l.tokens ++ closed.map fun _ => Token.blockEnd
      indent := left.headD (-1)
      outer := left.drop 1 }

/-! ## Possible keys -/

/-- Gives up the place where a key may have started; refused if it has to be one. -/
def dropKey (l : Lexer) : Option Lexer :=
  if l.key.any (·.required) then none else some { l with key := none }

/-- Whether a key that started somewhere can no longer be one: it has to end on its line,
    and within 1024 octets. -/
def isStale (l : Lexer) (k : PossibleKey) : Bool :=
  k.line < l.cursor.line || k.octets + 1024 < l.cursor.octets

/-- Gives up all places that are too far back; refused if one of them has to be a key. -/
def dropStaleKeys (l : Lexer) : Option Lexer :=
  if (l.key :: l.outerKeys).any (·.any fun k => l.isStale k && k.required) then none
  else
    let fresh (k : Option PossibleKey) : Option PossibleKey := k.filter (!l.isStale ·)
    some { l with key := fresh l.key, outerKeys := l.outerKeys.map fresh }

/-- Keeps this place as one where a key may start. -/
def saveKey (l : Lexer) : Option Lexer :=
  if l.keyAllowed then do
    let l ← l.dropKey
    let c := l.cursor
    pure { l with key := some {
      required := !l.inFlow && l.indent = c.column
      place := l.tokens.size
      line := c.line, column := c.column, octets := c.octets } }
  else some l

/-! ## Between tokens -/

/-- Behind blanks, comments and line breaks, and behind a byte order mark at the start of a
    line.  Where a key may start outside of brackets, a tab is no blank. -/
def skipToToken : Nat → Lexer → Lexer
  | 0, l => l
  | steps + 1, l =>
    let tabs := l.inFlow || !l.keyAllowed
    let c := l.cursor.skipOrderMark
    let c := (c.skipWhile fun x => x = ' ' || (tabs && x = '\t')).skipComment
    if c.seesAny isBreak then
      skipToToken steps { l with cursor := c.skipBreak, keyAllowed := l.keyAllowed || !l.inFlow }
    else { l with cursor := c }

/-! ## Single tokens -/

/-- A token of some characters that no key can reach over. -/
def mark (l : Lexer) (length : Nat) (t : Token) (keyAllowed : Bool) : Option Lexer := do
  let l ← l.dropKey
  pure { l.emit t with cursor := l.cursor.skipMany length, keyAllowed }

def documentMarker (l : Lexer) (t : Token) : Option Lexer :=
  (l.closeBlocks (-1)).mark 3 t false

def directive (l : Lexer) : Option Lexer := do
  let l ← (l.closeBlocks (-1)).dropKey
  let (t, c) ← scanDirective l.cursor
  pure { l.emit t with cursor := c, keyAllowed := false }

/-- An opening bracket, which may start a key. -/
def openFlow (l : Lexer) (t : Token) : Option Lexer := do
  let l ← l.saveKey
  pure { l.emit t with
    cursor := l.cursor.skip, key := none, outerKeys := l.key :: l.outerKeys, keyAllowed := true }

def closeFlow (l : Lexer) (t : Token) : Option Lexer := do
  let l ← l.dropKey
  let l := match l.outerKeys with
    | key :: outerKeys => { l with key, outerKeys }
    | [] => l
  pure { l.emit t with cursor := l.cursor.skip, keyAllowed := false }

/-- The mark of an item of a block sequence. -/
def blockEntry (l : Lexer) : Option Lexer :=
  if l.inFlow then l.mark 1 .blockEntry true
  else if l.keyAllowed then
    (l.openBlock l.cursor.column l.tokens.size .blockSequenceStart).mark 1 .blockEntry true
  else none

/-- The mark of a key. -/
def keyMark (l : Lexer) : Option Lexer :=
  if l.inFlow then l.mark 1 .key false
  else if l.keyAllowed then
    (l.openBlock l.cursor.column l.tokens.size .blockMappingStart).mark 1 .key true
  else none

/-- The colon before a value.  If a key may have started before, it did, and opened a
    mapping if it stands deeper than what is around it. -/
def valueMark (l : Lexer) : Option Lexer :=
  let behind (l : Lexer) (keyAllowed : Bool) : Lexer :=
    { l.emit .value with cursor := l.cursor.skip, keyAllowed }
  match l.key with
  | some k =>
    let l := (l.emitAt k.place .key).openBlock k.column k.place .blockMappingStart
    some (behind { l with key := none } false)
  | none =>
    if l.inFlow then some (behind l false)
    else if l.keyAllowed then
      some (behind (l.openBlock l.cursor.column l.tokens.size .blockMappingStart) true)
    else none

/-- A token that may start a key. -/
def atom (l : Lexer) (scan : Cursor → Option (Token × Cursor)) : Option Lexer := do
  let l ← l.saveKey
  let (t, c) ← scan l.cursor
  pure { l.emit t with cursor := c, keyAllowed := false }

/-- A plain scalar.  Behind one that reaches over the end of a line a key may start. -/
def plain (l : Lexer) : Option Lexer := do
  let l ← l.saveKey
  let (text, broken, c) ← scanPlain l.inFlow (l.indent + 1).toNat l.cursor
  pure { l.emit (.scalar .plain text) with cursor := c, keyAllowed := broken }

def block (l : Lexer) (style : Style) : Option Lexer := do
  let l ← l.dropKey
  let (text, c) ← scanBlock (style == .literal) l.indent l.cursor
  pure { l.emit (.scalar style text) with cursor := c, keyAllowed := true }

def quoted (l : Lexer) (style : Style) : Option Lexer :=
  l.atom fun c => (scanQuoted (style == .double) c).map fun (text, c) => (.scalar style text, c)

/-- The characters that start no plain scalar, whatever follows them. -/
def isIndicator (x : Char) : Bool :=
  [',', '[', ']', '\x7b', '\x7d', '#', '&', '*', '!', '|', '>', '\'', '"', '%', '@',
    '\x60'].contains x

/-- Whether a plain scalar may start with a character. -/
def startsPlain (l : Lexer) (x : Char) : Bool :=
  if x = '-' then !(l.cursor.at? 1).any isBlank
  else if x = '?' || x = ':' then !l.inFlow && !l.cursor.gapAt 1
  else !isBlank x && !isIndicator x

def token (l : Lexer) (x : Char) : Option Lexer :=
  let c := l.cursor
  if c.column = 0 && x = '%' then l.directive
  else if c.seesMarker '-' then l.documentMarker .documentStart
  else if c.seesMarker '.' then l.documentMarker .documentEnd
  else if x = '[' then l.openFlow .flowSequenceStart
  else if x = '\x7b' then l.openFlow .flowMappingStart
  else if x = ']' then l.closeFlow .flowSequenceEnd
  else if x = '\x7d' then l.closeFlow .flowMappingEnd
  else if x = ',' then l.mark 1 .flowEntry true
  else if x = '-' && c.gapAt 1 then l.blockEntry
  else if x = '?' && (l.inFlow || c.gapAt 1) then l.keyMark
  else if x = ':' && (l.inFlow || c.gapAt 1) then l.valueMark
  else if x = '*' then l.atom fun c => (scanName c).map fun (name, c) => (.alias name, c)
  else if x = '&' then l.atom fun c => (scanName c).map fun (name, c) => (.anchor name, c)
  else if x = '!' then l.atom (scanTag l.inFlow)
  else if x = '|' && !l.inFlow then l.block .literal
  else if x = '>' && !l.inFlow then l.block .folded
  else if x = '\'' then l.quoted .single
  else if x = '"' then l.quoted .double
  else if l.startsPlain x then l.plain
  else none

/-! ## The whole text -/

/-- The tokens from a place on.  Each step takes at least one character. -/
def run : Nat → Lexer → Option (List Token)
  | 0, _ => none
  | steps + 1, l =>
    match (skipToToken (l.cursor.rest.length + 1) l).dropStaleKeys with
    | none => none
    | some l =>
      let l := l.closeBlocks l.cursor.column
      match l.cursor.rest with
      | [] => (l.closeBlocks (-1)).dropKey.map (·.tokens.toList)
      | x :: _ =>
        match l.token x with
        | none => none
        | some l => run steps l

end Lexer

/-- The tokens of a text; nothing if the text is malformed. -/
def tokens? (cs : List Char) : Option (List Token) :=
  if cs.all isPrintable then ({ cursor := { rest := cs } } : Lexer).run (cs.length + 1) else none

end TraceFold.Yaml
