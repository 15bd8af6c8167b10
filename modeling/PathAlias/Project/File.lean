import PathAlias.Project.Lines

/-!
Contract: whole texts and files with their specifiers replaced.

Owns:
- files before and after;
- the effect of a project on a text at a path, on a file, and on several files.

Does not own: loading and storing files.

A text is taken line by line.  A line ends at a newline only, so that a
carriage return is part of its line.
-/

set_option autoImplicit false

namespace PathAlias

/-- What a file delivers as its contents. -/
inductive Contents where
  | buffered (bytes : List UInt8)
  | streamed
  | null
  deriving DecidableEq, Repr

namespace Contents

def bytes? : Contents → Option (List UInt8)
  | buffered bytes => some bytes
  | streamed | null => none

def text? (contents : Contents) : Option Text := contents.bytes?.bind Utf8.decode?

end Contents

/-- A file as it is delivered. -/
structure File where
  path : Option Path
  contents : Contents
  deriving DecidableEq, Repr

namespace File

/-- The path of a file, unless it is empty. -/
def usablePath? (file : File) : Option Path := file.path.filter fun path => path.bytes ≠ []

end File

/-- A file with its specifiers replaced, and the path it came with. -/
structure EditedFile where
  path : Option Path
  contents : Contents
  report : Report
  deriving DecidableEq, Repr

namespace EditedFile

def unchanged (file : File) : EditedFile := ⟨file.path, file.contents, .empty⟩

end EditedFile

structure EditedText where
  text : Text
  report : Report
  deriving DecidableEq, Repr

namespace Project

def referencesOf (path : Path) (lines : List Text) : Except EditError (List Reference) :=
  match Reference.ofLines path lines with
  | .error line => .error (.ambiguousLine line)
  | .ok references => .ok references

/-- The new text of a file at a path, with the report on it.  There is none when
the file has no references, or none of them resolves. -/
def reviseText (project : Project) (path : Path) (text : Text) :
    Except EditError (Option Text × Report) := do
  let lines := Separated.split '\n' text
  let references ← referencesOf path lines
  if references.isEmpty then
    return (none, .empty)
  else
    let edited ← project.editLines lines references
    if edited.report.isUnchanged then
      return (none, edited.report)
    else
      return (some (Separated.join '\n' (edited.lines.map EditedLine.text)), edited.report)

def editText (project : Project) (path : Path) (text : Text) : Except EditError EditedText := do
  let (revised, report) ← project.reviseText path text
  return ⟨revised.getD text, report⟩

/-- A file with every aliased specifier replaced.  A file without contents
needs nothing, not even a path. -/
def editFile (project : Project) (file : File) : Except EditError EditedFile :=
  match file.contents with
  | .streamed => .error .streamed
  | .null | .buffered [] => .ok (.unchanged file)
  | .buffered bytes =>
      match file.usablePath? with
      | none => .error .noPath
      | some path =>
          match Utf8.decode? bytes with
          | none => .error (.notUtf8 path)
          | some text => do
              let (revised, report) ← project.reviseText path text
              return ⟨file.path,
                match revised with
                | none => file.contents
                | some revised => .buffered (Utf8.encode revised), report⟩

/-- Files in order, each with every aliased specifier replaced, or the failure of
one of them.  Of several files that fail this names the first.  Files that are
edited at the same time may fail in any order, so that a caller can rely on the
failure of some file, and not on the failure of the first. -/
def editFiles (project : Project) (files : List File) : Except EditError (List EditedFile) :=
  files.mapM project.editFile

end Project

end PathAlias
