import PathAlias.Mapping.Basic
import PathAlias.Path.Clean
import PathAlias.Path.Relative

/-!
Contract: where a specifier leads from a file.

Owns:
- the project: a path mapping used from a working directory;
- the substitution of an alias, the destination of a specifier, and the
  specifier that leads there from a file.

Does not own: files, lines, or whether a destination exists.
-/

set_option autoImplicit false

namespace PathAlias

namespace Alias

def substitute? (used : Alias) (specifier : Text) : Option Text :=
  used.target.map fun target => target ++ specifier.drop used.stem.length

end Alias

namespace PathMapping

/-- A specifier with its alias substituted; nothing when it falls under no
alias, or under one without a target. -/
def substitute? (mapping : PathMapping) (specifier : Text) : Option Text := do
  let used ← mapping.aliases.find? specifier
  used.substitute? specifier

end PathMapping

/-- A path mapping, used from a working directory.  The directory should be
absolute. -/
structure Project where
  mapping : PathMapping
  workingDirectory : Path
  deriving DecidableEq

namespace Project

def ofConfiguration (configuration : Option Configuration) (workingDirectory : Path) :
    Except ConfigurationError Project := do
  let mapping ← PathMapping.ofConfiguration configuration
  return ⟨mapping, workingDirectory⟩

def anchor (project : Project) (path : Path) : Path := path.anchor project.workingDirectory

def baseDirectory (project : Project) : Path :=
  project.anchor (Path.ofText project.mapping.baseUrl)

def directoryOf (project : Project) (file : Path) : Path := (project.anchor file).directory

def dropLeadingSlashes (text : Text) : Text := text.dropWhile (· = '/')

/-- The path that a substituted specifier leads to.  Slashes at its start do
not take it out of the base directory. -/
def destination (project : Project) (substituted : Text) : Path :=
  project.anchor (project.baseDirectory.join (Path.ofText (dropLeadingSlashes substituted)))

/-- A route marked as one, so that no module resolver takes it for the name of
a package.  A route that starts with a dot needs no mark. -/
def markRoute (route : Text) : Text :=
  if route.head? = some '.' then route else '.' :: '/' :: route

def specifierTo (project : Project) (importer destination : Path) : Text :=
  markRoute (Text.replaceChar '\\' '/' (Path.relative (project.directoryOf importer) destination))

/-- The specifier to put in a file in place of an aliased one; nothing when no
alias applies. -/
def resolve? (project : Project) (importer : Path) (specifier : Text) : Option Text :=
  (project.mapping.substitute? specifier).map fun substituted =>
    project.specifierTo importer (project.destination substituted)

end Project

end PathAlias
