import PathAlias.Json.Basic
import PathAlias.Json.Number
import PathAlias.Json.Quoted

/-!
Contract: reading JSON.

Owns: values with a bound on their nesting, the value at the front of a text,
and whole documents.

Does not own: what a value means.

The bound on nesting is the recursion.  A sequence of items recurs on the
number of characters that are left, each item but the last being followed by a
comma.
-/

set_option autoImplicit false

namespace PathAlias.Json

/-! ## Sequences -/

/-- One item and all that follow it, up to the closing character. -/
def readItems {Item : Type} (close : Char) (readItem : Text → Except Fault (Item × Text)) :
    Nat → Text → Except Fault (List Item × Text)
  | 0, _ => .error .unfinished
  | left + 1, text => do
      let (item, rest) ← readItem text
      match skipBlanks rest with
      | [] => .error .unfinished
      | symbol :: rest =>
          if symbol = close then return ([item], rest)
          else if symbol = ',' then
            let (others, rest) ← readItems close readItem left rest
            return (item :: others, rest)
          else .error .malformed

def readSequence {Item : Type} (close : Char) (readItem : Text → Except Fault (Item × Text))
    (text : Text) : Except Fault (List Item × Text) :=
  match skipBlanks text with
  | [] => .error .unfinished
  | symbol :: rest =>
      if symbol = close then .ok ([], rest)
      else readItems close readItem text.length (symbol :: rest)

def readMember (readValue : Text → Except Fault (Json × Text)) (text : Text) :
    Except Fault ((Text × Json) × Text) :=
  match skipBlanks text with
  | [] => .error .unfinished
  | symbol :: rest =>
      if symbol = '"' then do
        let (name, rest) ← Quoted.read rest
        match skipBlanks rest with
        | [] => .error .unfinished
        | symbol :: rest =>
            if symbol = ':' then do
              let (value, rest) ← readValue rest
              return ((name, value), rest)
            else .error .malformed
      else .error .malformed

/-! ## Values -/

/-- A value whose items and members are read as given.  Without a reader for
them no array and no object may open. -/
def readValueWith (readNested : Option (Text → Except Fault (Json × Text))) (text : Text) :
    Except Fault (Json × Text) :=
  match skipBlanks text with
  | [] => .error .unfinished
  | symbol :: rest =>
      if symbol = 'n' then readWord null "ull".toList rest
      else if symbol = 't' then readWord (boolean true) "rue".toList rest
      else if symbol = 'f' then readWord (boolean false) "alse".toList rest
      else if symbol = '"' then do
        let (content, rest) ← Quoted.read rest
        return (string content, rest)
      else if symbol = '-' ∨ Number.isDigit symbol then do
        let (literal, rest) ← Number.read (symbol :: rest)
        return (number literal, rest)
      else if symbol = '[' then
        match readNested with
        | none => .error .malformed
        | some readNested => do
            let (items, rest) ← readSequence ']' readNested rest
            return (array items, rest)
      else if symbol = '\x7b' then
        match readNested with
        | none => .error .malformed
        | some readNested => do
            let (members, rest) ← readSequence '\x7d' (readMember readNested) rest
            return (object members, rest)
      else .error .malformed

/-- A value with at most the given number of arrays and objects open at
once. -/
def readValue : Nat → Text → Except Fault (Json × Text)
  | 0 => readValueWith none
  | depth + 1 => readValueWith (some (readValue depth))

/-- The number of arrays and objects that a document may have open at once. -/
def depthLimit : Nat := 127

def readFront (text : Text) : Except Fault (Json × Text) := readValue depthLimit text

def readEnd (text : Text) : Except Fault Unit :=
  if skipBlanks text = [] then .ok () else .error .malformed

def readDocument (text : Text) : Except Fault Json := do
  let (value, rest) ← readFront text
  readEnd rest
  return value

end PathAlias.Json
