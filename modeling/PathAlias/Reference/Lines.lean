import PathAlias.Path.Basic
import PathAlias.Reference.Pattern

/-!
Contract: the references of a file, line by line.

Owns: the reference as a place in a file, the refusal of lines with several
references, and the list of references of a file.

Does not own: which references lead anywhere.

A line with several references is refused because one replacement by position
would leave the others as they are.
-/

set_option autoImplicit false

namespace PathAlias

/-- A specifier at its place in a file. -/
structure Reference where
  path : Path
  /-- The number of lines before the line. -/
  index : Nat
  specifier : Text
  /-- The bytes of the specifier within its line. -/
  span : Span
  deriving DecidableEq, Repr

namespace Reference

/-- A line with several references, counted from one. -/
structure AmbiguousLine where
  path : Path
  number : Nat
  deriving DecidableEq, Repr

def ofLine (owner : Path) (index : Nat) (line : Text) :
    Except AmbiguousLine (Option Reference) :=
  match find? line with
  | none => .ok none
  | some occurrence =>
      if 1 < count line then .error ⟨owner, index + 1⟩
      else .ok (some ⟨owner, index, occurrence.specifier, occurrence.span⟩)

def ofLinesAfter (owner : Path) : Nat → List Text → Except AmbiguousLine (List Reference)
  | _, [] => .ok []
  | index, line :: rest => do
      let found ← ofLine owner index line
      let others ← ofLinesAfter owner (index + 1) rest
      return found.toList ++ others

/-- The references of a file in line order.  The first line with several of
them fails the file. -/
def ofLines (owner : Path) (lines : List Text) : Except AmbiguousLine (List Reference) :=
  ofLinesAfter owner 0 lines

end Reference

end PathAlias
