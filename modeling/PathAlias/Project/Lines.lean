import PathAlias.Project.Basic
import PathAlias.Project.Error

/-!
Contract: lines with the specifiers of references replaced, and the report of
it.

Owns:
- a line that was kept or changed;
- the report of substitutions;
- the effect of arbitrary references on the lines they point to.

Does not own: where references come from (`PathAlias.Reference.Lines`).

Every substitution starts from the line as it was given.  Of several references
to one line the last one decides what the line becomes.
-/

set_option autoImplicit false

namespace PathAlias

/-- A line after its references were resolved. -/
inductive EditedLine where
  | kept (text : Text)
  /-- The line with a specifier replaced, if only by the same text. -/
  | changed (text : Text)
  deriving DecidableEq, Repr

namespace EditedLine

def text : EditedLine → Text
  | kept text => text
  | changed text => text

def isChanged : EditedLine → Bool
  | kept _ => false
  | changed _ => true

end EditedLine

/-- One specifier that was replaced. -/
structure Substitution where
  /-- The number of lines before the line. -/
  line : Nat
  specifier : Text
  replacement : Text
  deriving DecidableEq, Repr

/-- What was replaced, and how many references were left alone. -/
structure Report where
  substitutions : List Substitution
  unresolved : Nat
  deriving DecidableEq, Repr

namespace Report

def empty : Report := ⟨[], 0⟩

def isUnchanged (report : Report) : Bool := report.substitutions.isEmpty

end Report

structure EditedLines where
  lines : List EditedLine
  report : Report
  deriving DecidableEq, Repr

namespace EditedLines

def untouched (lines : List Text) : EditedLines := ⟨lines.map .kept, .empty⟩

/-- One more reference that no alias applies to. -/
def leave (edited : EditedLines) : EditedLines :=
  { edited with report := { edited.report with unresolved := edited.report.unresolved + 1 } }

/-- One more reference replaced, which makes its line the given text. -/
def replace (edited : EditedLines) (substitution : Substitution) (text : Text) :
    EditedLines where
  lines := edited.lines.set substitution.line (.changed text)
  report :=
    { edited.report with substitutions := edited.report.substitutions ++ [substitution] }

end EditedLines

namespace Project

/-- The effect of one reference on the line it points to.  A reference beyond
the last line has none. -/
def editReference (project : Project) (lines : List Text) (edited : EditedLines)
    (reference : Reference) : Except EditError EditedLines :=
  match lines[reference.index]? with
  | none => .ok edited
  | some line =>
      match project.resolve? reference.path reference.specifier with
      | none => .ok edited.leave
      | some replacement =>
          match reference.span.replace? replacement line with
          | none => .error (.spanOutsideLine reference)
          | some text =>
              .ok (edited.replace ⟨reference.index, reference.specifier, replacement⟩ text)

def editLines (project : Project) (lines : List Text) (references : List Reference) :
    Except EditError EditedLines :=
  references.foldlM (project.editReference lines) (.untouched lines)

end Project

end PathAlias
