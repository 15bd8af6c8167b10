import PathAlias.OrderedMap
import PathAlias.Text.Basic

/-!
Contract: JSON values.

Owns: the type `Json`, which keeps every member of an object as it was
written, and the value with repeated members merged.

Does not own: reading and printing (`PathAlias.Json.Reader`,
`PathAlias.Json.Printer`).
-/

set_option autoImplicit false

namespace PathAlias

/-- A JSON value.  A number is kept as its literal, because nothing here
calculates with it; an object is kept with all its members in order, repeated
names included. -/
inductive Json where
  | null
  | boolean (value : Bool)
  | number (literal : Text)
  | string (text : Text)
  | array (items : List Json)
  | object (members : List (Text × Json))

namespace Json

mutual

/-- The value in which every object names each member once, at the position
of its first occurrence and with the value of its last. -/
def merged : Json → Json
  | array items => array (mergedItems items)
  | object members =>
      object ((mergedMembers members).foldl
        (fun kept member => placeEntry member.1 member.2 kept) [])
  | other => other

def mergedItems : List Json → List Json
  | [] => []
  | item :: rest => merged item :: mergedItems rest

def mergedMembers : List (Text × Json) → List (Text × Json)
  | [] => []
  | (name, value) :: rest => (name, merged value) :: mergedMembers rest

end

/-- The value of a member, null when the object has no such member, and
nothing when it has several. -/
def memberOrNull? (name : Text) (members : List (Text × Json)) : Option Json :=
  match members.filter (fun member => member.1 = name) with
  | [] => some null
  | [(_, value)] => some value
  | _ => none

end Json

end PathAlias
