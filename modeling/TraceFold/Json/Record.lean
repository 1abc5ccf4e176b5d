/-
  TraceFold.Json.Record

  Records in JSON.  A record has fields in a fixed order, each with a name and
  possibly a second one.  It is written as an object, where unknown members are
  skipped and the same field twice is refused, or as an array of its fields in their
  order, where the last ones may be missing.
-/

import TraceFold.Json.Basic

namespace TraceFold.Json

/-- A field of a record: its name, and its second name if it has one. -/
structure Field where
  name : String
  alias? : Option String := none
  deriving DecidableEq, Repr

def Field.isNamed (f : Field) (name : String) : Bool :=
  name = f.name || some name = f.alias?

/-- The values that a record gives to its fields, under the fields' names. -/
abbrev Slots := List (String × Option Json)

/-- The value that members give to a field, refused if two of them do. -/
def slotOfMembers? (members : List (String × Json)) (f : Field) : Option (Option Json) :=
  match members.filter fun (name, _) => f.isNamed name with
  | [] => some none
  | [(_, j)] => some (some j)
  | _ => none

/-- The slots of a record written as an object. -/
def slotsOfMembers? (fields : List Field) (members : List (Option String × Json)) :
    Option Slots := do
  let members ← members.mapM fun (name, j) => name.map (·, j)
  fields.mapM fun f => (slotOfMembers? members f).map (f.name, ·)

/-- The slots of a record written as an array. -/
def slotsOfItems? : List Field → List Json → Option Slots
  | fields, [] => some (fields.map fun f => (f.name, none))
  | [], _ :: _ => none
  | f :: fields, j :: items => (slotsOfItems? fields items).map ((f.name, some j) :: ·)

/-- The slots of a record in either notation. -/
def slots? (fields : List Field) : Json → Option Slots
  | .object members => slotsOfMembers? fields members
  | .array items => slotsOfItems? fields items
  | _ => none

namespace Slots

/-- The value given to the field of a name. -/
def value? (slots : Slots) (name : String) : Option Json :=
  (slots.lookup name).join

/-- A field that has to be given. -/
def required {α : Type} (slots : Slots) (name : String) (read? : Json → Option α) : Option α :=
  (slots.value? name).bind read?

/-- A field that has a value of its own where it is not given. -/
def orElse {α : Type} (slots : Slots) (name : String) (read? : Json → Option α) (fallback : α) :
    Option α :=
  match slots.value? name with
  | none => some fallback
  | some j => read? j

end Slots

end TraceFold.Json
