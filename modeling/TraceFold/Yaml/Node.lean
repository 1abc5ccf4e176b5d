/-
  TraceFold.Yaml.Node

  The node that a YAML text denotes: a scalar, a sequence or a mapping.  Aliases are kept
  as the number of an anchor; a text holds one document at most.
-/

import TraceFold.Yaml.Lexer

namespace TraceFold.Yaml

/-- A scalar with the octets of its resolved tag. -/
structure Scalar where
  style : Style := .plain
  tag : Option (List UInt8) := none
  text : List Char := []
  deriving DecidableEq, Repr, Inhabited

/-- Whether nothing is written where the scalar stands. -/
def Scalar.isVoid (s : Scalar) : Bool :=
  s.style == .plain && s.text.isEmpty

inductive Node where
  | scalar (value : Scalar)
  | alias (number : Nat)
  | sequence (items : List Node)
  | mapping (pairs : List (Node × Node))
  deriving Inhabited

/-! ## Anchors -/

/-- The anchors set so far. -/
structure Anchors where
  /-- Every name, with its number. -/
  names : List (List Char × Nat) := []
  /-- What a number stands for, the latest first: a scalar, or nothing for a collection. -/
  targets : List (Nat × Option Scalar) := []
  deriving Inhabited

namespace Anchors

/-- Sets an anchor.  Its number is how many names are known by then; a name that is set
    again gives up its old number. -/
def set (a : Anchors) (name : Option (List Char)) (target : Option Scalar) : Anchors :=
  match name with
  | none => a
  | some name =>
    let number := a.names.length
    { names := (name, number) :: a.names.filter (·.1 != name)
      targets := (number, target) :: a.targets }

def number? (a : Anchors) (name : List Char) : Option Nat :=
  a.names.lookup name

def scalar? (a : Anchors) (number : Nat) : Option Scalar :=
  (a.targets.lookup number).join

end Anchors

/-! ## Tags -/

/-- What a tag handle stands for. -/
abbrev Handles := List (List Char × List UInt8)

/-- The handles that need no directive. -/
def standardHandles : Handles :=
  [(['!'], octetsOf ['!']), (['!', '!'], octetsOf "tag:yaml.org,2002:".toList)]

/-- A tag with its handle resolved. -/
def resolveTag (handles : Handles) (handle : List Char) (suffix : List UInt8) :
    Option (List UInt8) :=
  if handle.isEmpty then some suffix else (handles.lookup handle).map (· ++ suffix)

/-! ## Nodes from tokens -/

/-- The anchor and the tag before a node, in either order, and the tokens behind them. -/
def properties (handles : Handles) :
    List Token → Option (Option (List Char) × Option (List UInt8) × List Token)
  | .anchor a :: .tag h s :: rest => (resolveTag handles h s).map fun t => (some a, some t, rest)
  | .tag h s :: .anchor a :: rest => (resolveTag handles h s).map fun t => (some a, some t, rest)
  | .anchor a :: rest => some (some a, none, rest)
  | .tag h s :: rest => (resolveTag handles h s).map fun t => (none, some t, rest)
  | rest => some (none, none, rest)

/-- Where nodes stand, which decides what ends an empty one and which collections may
    start without brackets. -/
inductive Place where
  /-- The root of a document, or an item of a block sequence. -/
  | block
  /-- A key or a value of a block mapping. -/
  | blockPair
  /-- An item of a sequence in the column of the mapping around it. -/
  | indentless
  /-- Between brackets. -/
  | flowItem
  | flowKey
  | flowValue
  /-- In a pair that is an item of a sequence in brackets. -/
  | pairKey
  | pairValue
  deriving DecidableEq, Repr

/-- Whether a token ends an empty node. -/
def Place.endsBefore : Place → Option Token → Bool
  | .block, t => t == some .blockEntry || t == some .blockEnd
  | .blockPair, t => t == some .key || t == some .value || t == some .blockEnd
  | .indentless, t =>
    t == some .blockEntry || t == some .key || t == some .value || t == some .blockEnd
  | .flowItem, _ => false
  | .flowKey, t => t == some .value || t == some .flowEntry || t == some .flowMappingEnd
  | .flowValue, t => t == some .flowEntry || t == some .flowMappingEnd
  | .pairKey, t => t == some .value || t == some .flowEntry || t == some .flowSequenceEnd
  | .pairValue, t => t == some .flowEntry || t == some .flowSequenceEnd

/-- Whether block collections may start here. -/
def Place.inBlock : Place → Bool
  | .block => true
  | .blockPair => true
  | .indentless => true
  | _ => false

/-- A node where nothing is written. -/
def void : Node := .scalar {}

mutual

/-- The node at a place, or an empty one. -/
def nodeAt (handles : Handles) :
    Nat → Place → Anchors → List Token → Option (Node × Anchors × List Token)
  | 0, _, _, _ => none
  | steps + 1, place, anchors, ts =>
    if place.endsBefore ts.head? then some (void, anchors, ts)
    else node handles steps place anchors ts

/-- The node that has to stand here. -/
def node (handles : Handles) :
    Nat → Place → Anchors → List Token → Option (Node × Anchors × List Token)
  | 0, _, _, _ => none
  | _ + 1, _, anchors, .alias name :: rest =>
    (anchors.number? name).map fun number => (.alias number, anchors, rest)
  | steps + 1, place, anchors, ts =>
    match properties handles ts with
    | none => none
    | some (anchor, tag, rest) =>
      let collection := anchors.set anchor none
      match rest with
      | .scalar style text :: rest =>
        let s : Scalar := { style, tag, text }
        some (.scalar s, anchors.set anchor (some s), rest)
      | .flowSequenceStart :: rest => flowItems handles steps collection true [] rest
      | .flowMappingStart :: rest => flowPairs handles steps collection true [] rest
      | .blockSequenceStart :: rest =>
        if place.inBlock then blockItems handles steps collection [] rest else none
      | .blockMappingStart :: rest =>
        if place.inBlock then blockPairs handles steps collection [] rest else none
      | rest =>
        if place == .blockPair && rest.head? == some .blockEntry then
          indentlessItems handles steps collection [] rest
        else if anchor.isSome || tag.isSome then
          let s : Scalar := { tag }
          some (.scalar s, anchors.set anchor (some s), rest)
        else none

/-- The items of a block sequence up to its end. -/
def blockItems (handles : Handles) :
    Nat → Anchors → List Node → List Token → Option (Node × Anchors × List Token)
  | 0, _, _, _ => none
  | _ + 1, anchors, done, .blockEnd :: rest => some (.sequence done.reverse, anchors, rest)
  | steps + 1, anchors, done, .blockEntry :: rest =>
    match nodeAt handles steps .block anchors rest with
    | none => none
    | some (n, anchors, rest) => blockItems handles steps anchors (n :: done) rest
  | _ + 1, _, _, _ => none

/-- The items of a sequence in the column of the mapping around it. -/
def indentlessItems (handles : Handles) :
    Nat → Anchors → List Node → List Token → Option (Node × Anchors × List Token)
  | 0, _, _, _ => none
  | steps + 1, anchors, done, .blockEntry :: rest =>
    match nodeAt handles steps .indentless anchors rest with
    | none => none
    | some (n, anchors, rest) => indentlessItems handles steps anchors (n :: done) rest
  | _ + 1, anchors, done, rest => some (.sequence done.reverse, anchors, rest)

/-- The pairs of a block mapping up to its end. -/
def blockPairs (handles : Handles) :
    Nat → Anchors → List (Node × Node) → List Token → Option (Node × Anchors × List Token)
  | 0, _, _, _ => none
  | _ + 1, anchors, done, .blockEnd :: rest => some (.mapping done.reverse, anchors, rest)
  | steps + 1, anchors, done, .key :: rest =>
    match nodeAt handles steps .blockPair anchors rest with
    | none => none
    | some (k, anchors, rest) =>
      match valueAt handles steps .blockPair anchors rest with
      | none => none
      | some (v, anchors, rest) => blockPairs handles steps anchors ((k, v) :: done) rest
  | _ + 1, _, _, _ => none

/-- The value behind a key, empty if it has no mark. -/
def valueAt (handles : Handles) :
    Nat → Place → Anchors → List Token → Option (Node × Anchors × List Token)
  | 0, _, _, _ => none
  | steps + 1, place, anchors, .value :: rest => nodeAt handles steps place anchors rest
  | _ + 1, _, anchors, rest => some (void, anchors, rest)

/-- The items of a sequence in brackets.  A comma stands before each but the first; an
    item may be a single pair.  An empty key of such a pair takes the token behind it
    along, so that no value can follow its colon. -/
def flowItems (handles : Handles) :
    Nat → Anchors → Bool → List Node → List Token → Option (Node × Anchors × List Token)
  | 0, _, _, _, _ => none
  | _ + 1, anchors, _, done, .flowSequenceEnd :: rest =>
    some (.sequence done.reverse, anchors, rest)
  | steps + 1, anchors, false, done, .flowEntry :: rest =>
    flowItems handles steps anchors true done rest
  | _ + 1, _, false, _, _ => none
  | steps + 1, anchors, true, done, .key :: rest =>
    let key? :=
      if Place.endsBefore .pairKey rest.head? then some (void, anchors, rest.drop 1)
      else node handles steps .pairKey anchors rest
    match key? with
    | none => none
    | some (k, anchors, rest) =>
      match valueAt handles steps .pairValue anchors rest with
      | none => none
      | some (v, anchors, rest) =>
        flowItems handles steps anchors false (.mapping [(k, v)] :: done) rest
  | steps + 1, anchors, true, done, ts =>
    match node handles steps .flowItem anchors ts with
    | none => none
    | some (n, anchors, rest) => flowItems handles steps anchors false (n :: done) rest

/-- The pairs of a mapping in brackets.  A comma stands before each but the first; a key
    may have no mark and no value. -/
def flowPairs (handles : Handles) :
    Nat → Anchors → Bool → List (Node × Node) → List Token → Option (Node × Anchors × List Token)
  | 0, _, _, _, _ => none
  | _ + 1, anchors, _, done, .flowMappingEnd :: rest => some (.mapping done.reverse, anchors, rest)
  | steps + 1, anchors, false, done, .flowEntry :: rest =>
    flowPairs handles steps anchors true done rest
  | _ + 1, _, false, _, _ => none
  | steps + 1, anchors, true, done, .key :: rest =>
    match nodeAt handles steps .flowKey anchors rest with
    | none => none
    | some (k, anchors, rest) =>
      match valueAt handles steps .flowValue anchors rest with
      | none => none
      | some (v, anchors, rest) => flowPairs handles steps anchors false ((k, v) :: done) rest
  | steps + 1, anchors, true, done, ts =>
    match node handles steps .flowItem anchors ts with
    | none => none
    | some (k, anchors, rest) => flowPairs handles steps anchors false ((k, void) :: done) rest

end

/-! ## Documents -/

/-- What the directives before a document say. -/
structure Directives where
  hasVersion : Bool := false
  handles : Handles := []
  deriving Inhabited

/-- The directives at the front, and the tokens behind them.  None may come twice, and the
    version has to be 1.1 or 1.2. -/
def directives : Directives → List Token → Option (Directives × List Token)
  | d, .versionDirective major minor :: rest =>
    if d.hasVersion || major != 1 || (minor != 1 && minor != 2) then none
    else directives { d with hasVersion := true } rest
  | d, .tagDirective handle lead :: rest =>
    if (d.handles.lookup handle).isSome then none
    else directives { d with handles := (handle, lead) :: d.handles } rest
  | d, rest => some (d, rest)

/-- Whether a token starts or ends a document. -/
def isBoundary : Option Token → Bool
  | none => true
  | some .documentStart => true
  | some .documentEnd => true
  | some (.versionDirective _ _) => true
  | some (.tagDirective _ _) => true
  | _ => false

/-- A document: its root, absent if nothing is written at all, and its anchors. -/
structure Document where
  root : Option Node
  anchors : Anchors := {}
  deriving Inhabited

/-- The root of a document, behind which only marks of its end may follow. -/
def rootOf (handles : Handles) (ts : List Token) : Option Document := do
  let (root, anchors, rest) ← node handles (4 * ts.length + 4) .block {} ts
  if rest.all (· == .documentEnd) then pure { root := some root, anchors } else none

/-- The document that tokens denote.  Directives need a mark behind them where the
    document starts. -/
def ofTokens? (ts : List Token) : Option Document :=
  if ts.isEmpty then some { root := none }
  else if isBoundary ts.head? && ts.head? != some .documentEnd then
    match directives {} ts with
    | some (d, .documentStart :: rest) =>
      if isBoundary rest.head? then
        if rest.all (· == .documentEnd) then some { root := some void } else none
      else rootOf (d.handles ++ standardHandles) rest
    | _ => none
  else rootOf standardHandles ts

/-- The document that a text denotes; nothing if the text is malformed. -/
def parse? (text : String) : Option Document :=
  (tokens? text.toList).bind ofTokens?

end TraceFold.Yaml
