/-
  TraceFold.Settings.Yaml

  Settings in YAML: a mapping from names to values.  Names that are not known are
  skipped, and what is not given has its standard value, so a text with nothing in it
  gives the standard settings.
-/

import TraceFold.Settings.Basic
import TraceFold.Text.Blank
import TraceFold.Yaml.Node

namespace TraceFold

namespace Yaml

/-- The scalar that a node is or stands for. -/
def Node.scalar? (anchors : Anchors) : Node → Option Scalar
  | .scalar s => some s
  | .alias number => anchors.scalar? number
  | _ => none

/-- The text of a scalar whose form does not say that it is a string: a plain one, or a
    kept block whose tag says what it is. -/
def Scalar.untyped? (s : Scalar) (type : String) : Option (List Char) :=
  match s.style with
  | .plain => some s.text
  | .literal =>
    if s.tag = some (octetsOf ("tag:yaml.org,2002:" ++ type).toList) then some s.text else none
  | _ => none

def boolOfText? (text : List Char) : Option Bool :=
  match String.ofList text with
  | "true" => some true
  | "True" => some true
  | "TRUE" => some true
  | "false" => some false
  | "False" => some false
  | "FALSE" => some false
  | _ => none

def Scalar.bool? (s : Scalar) : Option Bool :=
  (s.untyped? "bool").bind boolOfText?

/-- The value of a digit, letters in either case standing for ten and more. -/
def digitValue? (base : Nat) (c : Char) : Option Nat :=
  (hexValue? c).filter (· < base)

/-- The number that digits denote, at least one of them. -/
def ofDigits? (base : Nat) (cs : List Char) : Option Nat :=
  if cs.isEmpty then none
  else cs.foldlM (fun n c => (digitValue? base c).map (n * base + ·)) 0

/-- The number below 2 ^ 64 that a text denotes: decimal without leading zeros, or
    hexadecimal, octal or binary behind a mark; one plus sign may stand before it. -/
def natOfText? (text : List Char) : Option Nat :=
  let unsigned := if text.head? = some '+' then text.drop 1 else text
  let value? :=
    match unsigned with
    | '0' :: 'x' :: cs => ofDigits? 16 cs
    | '0' :: 'o' :: cs => ofDigits? 8 cs
    | '0' :: 'b' :: cs => ofDigits? 2 cs
    | ['0'] => some 0
    | '0' :: _ => none
    | cs => ofDigits? 10 cs
  value?.filter (· < UInt64.size)

def Scalar.nat? (s : Scalar) : Option Nat :=
  (s.untyped? "int").bind natOfText?

end Yaml

namespace Settings

open Yaml (Node Anchors Document)

/-- The value of a name among pairs: absent if the name is, refused if it comes twice. -/
def valueOf? (pairs : List (List Char × Node)) (name : String) : Option (Option Node) :=
  match pairs.filter fun (key, _) => key = name.toList with
  | [] => some none
  | [(_, value)] => some (some value)
  | _ => none

/-- A setting that is given, or its standard value. -/
def settingOf? {α : Type} (anchors : Anchors) (pairs : List (List Char × Node)) (name : String)
    (read? : Yaml.Scalar → Option α) (standard : α) : Option α := do
  match ← valueOf? pairs name with
  | none => pure standard
  | some value => (value.scalar? anchors).bind read?

/-- The settings that the pairs of a mapping give.  Every key is a scalar. -/
def ofPairs? (anchors : Anchors) (pairs : List (Node × Node)) : Option Settings := do
  let pairs ← pairs.mapM fun (key, value) => (key.scalar? anchors).map fun s => (s.text, value)
  let standard : Settings := {}
  let collapseStandardGraphs ← settingOf? anchors pairs "collapse_standard_graphs"
    Yaml.Scalar.bool? standard.collapseStandardGraphs
  let markLargestPath ← settingOf? anchors pairs "mark_largest_path"
    Yaml.Scalar.bool? standard.markLargestPath
  let sharePrecision ← settingOf? anchors pairs "share_precision"
    Yaml.Scalar.nat? standard.sharePrecision
  pure { collapseStandardGraphs, markLargestPath, sharePrecision }

def ofDocument? (d : Document) : Option Settings :=
  match d.root with
  | none => some {}
  | some (.mapping pairs) => ofPairs? d.anchors pairs
  | some (.scalar s) => if s.isVoid then some {} else none
  | some _ => none

/-- The settings that a text gives; a text of blanks gives the standard ones. -/
def parse? (text : String) : Option Settings :=
  if (Text.trim text.toList).isEmpty then some {} else (Yaml.parse? text).bind ofDocument?

end Settings

end TraceFold
