import PathAlias.Path.Basic

/-!
Contract: the route from one directory to another path, as text.

Owns: the common start of two component lists and the relative route.

Does not own: cleaning; both paths are taken as they are.
-/

set_option autoImplicit false

namespace PathAlias.Path

def commonLength : List Component → List Component → Nat
  | left :: lefts, right :: rights =>
      if left = right then commonLength lefts rights + 1 else 0
  | _, _ => 0

/-- The steps from one component list to another that shares `shared`
components with it: a parent for every component left behind, then the
components that remain. -/
def routeText (shared : Nat) (origin destination : List Component) : List Text :=
  List.replicate (origin.length - shared) ['.', '.']
    ++ (destination.drop shared).map Component.displayText

/-- The route from a directory to a path, with slashes between its steps.  It
is empty between equal paths.  Where the two share no start at all, no route
exists and the destination itself is given. -/
def relative (origin destination : Path) : Text :=
  match commonLength origin.components destination.components with
  | 0 => (ofComponents destination.components).slashText
  | shared =>
      Separated.join '/' (routeText shared origin.components destination.components)

end PathAlias.Path
