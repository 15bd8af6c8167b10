import PathAlias.Configuration.Error
import PathAlias.Reference.Lines

/-!
Contract: why the specifiers of a file cannot be replaced.

Owns: the causes, their kinds and their wording.

Does not own: the checks that find them.
-/

set_option autoImplicit false

namespace PathAlias

/-- Why the specifiers of a file cannot be replaced. -/
inductive EditError where
  | configuration (cause : ConfigurationError)
  | ambiguousLine (line : Reference.AmbiguousLine)
  | streamed
  | noPath
  | notUtf8 (path : Path)
  /-- A reference that resolves names a span that does not fit its line. -/
  | spanOutsideLine (reference : Reference)
  deriving DecidableEq, Repr

namespace EditError

/-- The broad kinds of failure. -/
inductive Kind where
  | configuration
  | ambiguousLine
  | unsupportedInput
  | unfitReference
  deriving DecidableEq, Repr

def kind : EditError → Kind
  | configuration _ => .configuration
  | ambiguousLine _ => .ambiguousLine
  | streamed | noPath | notUtf8 _ => .unsupportedInput
  | spanOutsideLine _ => .unfitReference

/-- A place in a file, its lines counted from one. -/
def place (path : Path) (number : Nat) : Text :=
  '(' :: path.displayText ++ ':' :: Nat.toDigits 10 number ++ [')']

def message : EditError → Text
  | configuration cause => cause.message
  | ambiguousLine line =>
      "multiple imports on the same line are not supported ".toList
        ++ place line.path line.number
  | streamed => "streaming is not supported; buffer file contents before rewriting".toList
  | noPath => "received file with no path; files must have a path to be resolved".toList
  | notUtf8 path => "file is not valid UTF-8 text: ".toList ++ path.displayText
  | spanOutsideLine reference =>
      "a reference does not fit its line ".toList ++ place reference.path (reference.index + 1)

end EditError

end PathAlias
