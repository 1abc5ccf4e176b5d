/-
  TraceFold.Json.Reader

  JSON text read into a value.  A `Reading` is what has been read so far: the
  containers that are still open, the innermost first, and what may come next.  Each
  token moves it on by one step, so nesting costs no recursion and its depth has no
  bound.
-/

import TraceFold.Json.Token

namespace TraceFold.Json

/-- A container that is still open, with what it holds so far, latest first. -/
inductive Frame where
  | items (before : List Json)
  | members (before : List (Option String × Json)) (key : Option String)

/-- A point inside a JSON text. -/
inductive Reading where
  /-- A value is due. -/
  | value (outer : List Frame)
  /-- Behind an opening bracket. -/
  | firstItem (outer : List Frame)
  /-- Behind an opening brace. -/
  | firstName (outer : List Frame)
  /-- Behind a comma in an object. -/
  | nextName (before : List (Option String × Json)) (outer : List Frame)
  /-- Behind a member's name. -/
  | colon (before : List (Option String × Json)) (key : Option String) (outer : List Frame)
  /-- A value is complete. -/
  | complete (value : Json) (outer : List Frame)

namespace Reading

/-- One token where a value is due. -/
def stepValue (outer : List Frame) : Token → Option Reading
  | .openBracket => some (.firstItem outer)
  | .openBrace => some (.firstName outer)
  | .null => some (.complete .null outer)
  | .bool b => some (.complete (.bool b) outer)
  | .number n => some (.complete (.number n) outer)
  | .string t => some (.complete (.string t) outer)
  | _ => none

/-- One token behind a complete value. -/
def stepComplete (v : Json) : List Frame → Token → Option Reading
  | .items before :: outer, .comma => some (.value (.items (v :: before) :: outer))
  | .items before :: outer, .closeBracket =>
    some (.complete (.array (v :: before).reverse) outer)
  | .members before key :: outer, .comma => some (.nextName ((key, v) :: before) outer)
  | .members before key :: outer, .closeBrace =>
    some (.complete (.object ((key, v) :: before).reverse) outer)
  | _, _ => none

/-- One token further; nothing if the token cannot stand here. -/
def step : Reading → Token → Option Reading
  | .value outer, t => stepValue outer t
  | .firstItem outer, .closeBracket => some (.complete (.array []) outer)
  | .firstItem outer, t => stepValue (.items [] :: outer) t
  | .firstName outer, .closeBrace => some (.complete (.object []) outer)
  | .firstName outer, .string key => some (.colon [] key outer)
  | .nextName before outer, .string key => some (.colon before key outer)
  | .colon before key outer, .colon => some (.value (.members before key :: outer))
  | .complete v outer, t => stepComplete v outer t
  | _, _ => none

/-- The value that was read, if the text may end here. -/
def finish? : Reading → Option Json
  | .complete v [] => some v
  | _ => none

/-- The rest of a text, from a point inside it. -/
def run (r : Reading) (cs : List Char) : Option Json :=
  match _hc : cs.dropWhile isSpace with
  | [] => r.finish?
  | c :: rest =>
    match _ht : Token.scan (c :: rest) with
    | none => none
    | some (t, rest') =>
      match r.step t with
      | none => none
      | some r' => r'.run rest'
termination_by cs.length
decreasing_by
  have h1 := Token.scan_length _ht
  have h2 := (List.dropWhile_sublist (l := cs) isSpace).length_le
  rw [_hc] at h2
  omega

end Reading

/-- The value that a whole text denotes; nothing if the text is not JSON. -/
def ofChars? (cs : List Char) : Option Json :=
  (Reading.value []).run cs

/-- The value that a whole string denotes; nothing if the string is not JSON. -/
def parse? (s : String) : Option Json :=
  ofChars? s.toList

end TraceFold.Json
