import PathAlias.Json.Basic
import PathAlias.Json.Quoted

/-!
Contract: printing JSON without blanks.

Owns: the text of a value.

Does not own: the order and choice of members, which the value itself has.
-/

set_option autoImplicit false

namespace PathAlias.Json

mutual

def render : Json → Text
  | null => "null".toList
  | boolean true => "true".toList
  | boolean false => "false".toList
  | number literal => literal
  | string content => Quoted.write content
  | array items => '[' :: renderItems items
  | object members => '\x7b' :: renderMembers members

/-- The text of items after the opening of their array. -/
def renderItems : List Json → Text
  | [] => [']']
  | [item] => render item ++ [']']
  | item :: rest => render item ++ ',' :: renderItems rest

/-- The text of members after the opening of their object. -/
def renderMembers : List (Text × Json) → Text
  | [] => ['\x7d']
  | [(name, value)] => Quoted.write name ++ ':' :: render value ++ ['\x7d']
  | (name, value) :: rest =>
      Quoted.write name ++ ':' :: render value ++ ',' :: renderMembers rest

end

end PathAlias.Json
