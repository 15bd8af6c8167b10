import PathAlias.Path.Basic

/-!
Contract: the lexical normal form of paths.

Owns: cleaning a path component by component, and anchoring a path at a
working directory.

Does not own: symbolic links or anything else that only a file system knows.
-/

set_option autoImplicit false

namespace PathAlias.Path

/-- One component onto a cleaned path, which is kept with its last component
in front.  The current directory adds nothing; a parent takes back a name,
has no effect at the root, and stays where there is nothing to take back. -/
def cleanStep : List Component → Component → List Component
  | cleaned, .current => cleaned
  | .root :: before, .parent => .root :: before
  | .name _ :: before, .parent => before
  | cleaned, component => component :: cleaned

/-- Components with every parent that has a name before it taken back. -/
def cleanComponents (components : List Component) : List Component :=
  (components.foldl cleanStep []).reverse

/-- The lexical normal form of a path.  A path that cleans to nothing is the
current directory. -/
def clean (path : Path) : Path :=
  match cleanComponents path.components with
  | [] => ⟨[dot]⟩
  | cleaned => ofComponents cleaned

def anchor (path workingDirectory : Path) : Path :=
  if path.isAbsolute then path.clean else (workingDirectory.join path).clean

end PathAlias.Path
