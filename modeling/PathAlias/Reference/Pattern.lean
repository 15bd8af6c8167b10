import PathAlias.Text.Span

/-!
Contract: where one line of source text refers to another module.

Owns:
- the three forms of a reference and their order of precedence;
- the first occurrence of a form in a text, and the number of its occurrences
  that do not overlap;
- the occurrence that stands for a whole line.

Does not own: files and their lines (`PathAlias.Reference.Lines`), or what a
specifier means.

Lines are searched as plain text.  Comments, strings and templates of the
source language are not told apart from code.
-/

set_option autoImplicit false

namespace PathAlias.Reference

/-- One form of reference: a quoted specifier between two fixed texts. -/
structure Pattern where
  /-- What stands directly before the opening quote. -/
  opening : Text
  /-- What stands directly after the closing quote. -/
  closing : Text
  deriving DecidableEq, Repr

/-- An occurrence of a pattern, as a division of the text it was found in. -/
structure Occurrence where
  /-- The text up to and including the opening quote. -/
  before : Text
  specifier : Text
  /-- The text from the closing quote on. -/
  after : Text
  deriving DecidableEq, Repr

namespace Occurrence

def span (occurrence : Occurrence) : Span :=
  Span.following occurrence.before occurrence.specifier

def shift (symbol : Char) (occurrence : Occurrence) : Occurrence :=
  { occurrence with before := symbol :: occurrence.before }

end Occurrence

def isQuote (symbol : Char) : Bool := symbol = '"' || symbol = '\''

namespace Pattern

def fromClause : Pattern := ⟨"from ".toList, []⟩

def importCall : Pattern := ⟨"import(".toList, [')']⟩

def requireCall : Pattern := ⟨"require(".toList, [')']⟩

/-- Every form of reference, in order of precedence. -/
def all : List Pattern := [fromClause, importCall, requireCall]

/-- A text divided at the first place where an ending stands on the same
line. -/
def divideBefore? (ending : Text) : Text → Option (Text × Text)
  | [] => none
  | symbol :: rest =>
      if ending.isPrefixOf (symbol :: rest) then some ([], symbol :: rest)
      else if symbol = '\n' then none
      else (divideBefore? ending rest).map fun (before, after) => (symbol :: before, after)

/-- The shortest occurrence that begins with the text: the specifier ends at
the first quote like the opening one that the closing text follows, and does
not leave the line. -/
def occurrenceAt? (pattern : Pattern) (text : Text) : Option Occurrence :=
  match pattern.opening.isPrefixOf? text with
  | some (quote :: rest) =>
      if isQuote quote then
        (divideBefore? (quote :: pattern.closing) rest).map
          fun (specifier, after) => ⟨pattern.opening ++ [quote], specifier, after⟩
      else none
  | _ => none

def first? (pattern : Pattern) : Text → Option Occurrence
  | [] => none
  | symbol :: rest =>
      match pattern.occurrenceAt? (symbol :: rest) with
      | some occurrence => some occurrence
      | none => (first? pattern rest).map (Occurrence.shift symbol)

/-- The number of characters of an occurrence that begins with the text, from
the opening to the end of the closing. -/
def extent (pattern : Pattern) (occurrence : Occurrence) : Nat :=
  occurrence.before.length + occurrence.specifier.length + 1 + pattern.closing.length

/-- The number of occurrences after the given number of characters, each
beginning after the end of the one before it. -/
def countAfter (pattern : Pattern) : Nat → Text → Nat
  | _, [] => 0
  | passed + 1, _ :: rest => countAfter pattern passed rest
  | 0, symbol :: rest =>
      match pattern.occurrenceAt? (symbol :: rest) with
      | some occurrence => countAfter pattern (pattern.extent occurrence - 1) rest + 1
      | none => countAfter pattern 0 rest

def count (pattern : Pattern) (text : Text) : Nat := pattern.countAfter 0 text

end Pattern

/-- The reference on a line: the first occurrence of the first form that
occurs. -/
def find? (line : Text) : Option Occurrence :=
  Pattern.all.findSome? fun pattern => pattern.first? line

/-- The number of references on a line, all forms together. -/
def count (line : Text) : Nat :=
  Pattern.all.foldr (fun pattern others => pattern.count line + others) 0

end PathAlias.Reference
