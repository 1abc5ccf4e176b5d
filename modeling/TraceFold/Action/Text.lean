/-
  TraceFold.Action.Text

  Actions as text: a verb, a colon and a target, such as `toggle:C3` or
  `standard:collapse`.  Blanks around either part are skipped, and the case of the verb
  does not matter.
-/

import TraceFold.Action.Basic

namespace TraceFold

namespace Action

/-- The text of an action. -/
def text : Action → String
  | .toggle node => "toggle:" ++ node.text
  | .expand codec => "expand:" ++ codec.text
  | .hide graph => "hide:" ++ graph.text
  | .standard true => "standard:collapse"
  | .standard false => "standard:expand"

end Action

/-- Why a text is no action. -/
inductive ActionTextError where
  /-- There is no colon; holds the text as it was given. -/
  | missingTarget (text : String)
  /-- Holds the verb in lower case. -/
  | unknownVerb (verb : String)
  | node (error : NodeTextError)
  /-- The target is a node of the wrong kind. -/
  | wrongKind (verb expected : String) (got : NodeId)
  | standardMode (mode : String)
  deriving DecidableEq, Repr

def ActionTextError.message : ActionTextError → String
  | .missingTarget text => "invalid action '" ++ text ++ "': expected <verb>:<target>"
  | .unknownVerb verb =>
    "unknown action verb '" ++ verb ++ "' (expected toggle, expand, hide or standard)"
  | .node error => error.message
  | .wrongKind verb expected got =>
    "'" ++ verb ++ "' expects a " ++ expected ++ " id, got " ++ got.text
  | .standardMode mode => "standard expects 'collapse' or 'expand', got '" ++ mode ++ "'"

namespace Action

/-- The node that a target names. -/
def targetNode (target : List Char) : Except ActionTextError NodeId :=
  (NodeId.ofText target).mapError .node

/-- The codec that a target has to name. -/
def targetCodec (verb : String) (target : List Char) : Except ActionTextError CodecId := do
  let node ← targetNode target
  match node with
  | .codec c => pure c
  | .graph _ => throw (.wrongKind verb "codec" node)

/-- The graph that a target has to name. -/
def targetGraph (verb : String) (target : List Char) : Except ActionTextError GraphId := do
  let node ← targetNode target
  match node with
  | .graph g => pure g
  | .codec _ => throw (.wrongKind verb "graph" node)

/-- Whether a target says to collapse or to expand. -/
def targetMode (target : List Char) : Except ActionTextError Bool :=
  match String.ofList (Text.trim target) with
  | "collapse" => .ok true
  | "expand" => .ok false
  | mode => .error (.standardMode mode)

/-- The action of a verb in lower case on a target. -/
def ofVerb (verb : String) (target : List Char) : Except ActionTextError Action :=
  match verb with
  | "toggle" => (targetNode target).map .toggle
  | "expand" => (targetCodec verb target).map .expand
  | "hide" => (targetGraph verb target).map .hide
  | "standard" => (targetMode target).map .standard
  | _ => .error (.unknownVerb verb)

/-- The action that a text stands for.  The first colon ends the verb. -/
def ofText (text : String) : Except ActionTextError Action :=
  let cs := Text.trim text.toList
  match cs.dropWhile (· ≠ ':') with
  | [] => .error (.missingTarget text)
  | _ :: target =>
    let verb := (Text.trim (cs.takeWhile (· ≠ ':'))).map Char.toLower
    ofVerb (String.ofList verb) target

end Action

end TraceFold
