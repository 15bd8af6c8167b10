import PathAlias.Text.Separated
import PathAlias.Text.Utf8

/-!
Contract: file paths as byte sequences, read component by component.

Owns:
- the type `Path`, its text, and whether it is absolute;
- the components of a path, and the path that a list of components spells;
- joining one path onto another and the directory that holds a path.

Does not own: the collapse of current and parent components
(`PathAlias.Path.Clean`) or routes between paths (`PathAlias.Path.Relative`).

A slash is the only separator; a backslash is an ordinary byte of a name.
Nothing here asks a file system.
-/

set_option autoImplicit false

namespace PathAlias

/-- A file path: bytes that need not be valid UTF-8. -/
structure Path where
  bytes : List UInt8
  deriving DecidableEq, Repr, Inhabited

namespace Path

def slash : UInt8 := 0x2F

def dot : UInt8 := 0x2E

def ofText (text : Text) : Path := ⟨Utf8.encode text⟩

/-- The text of a path, malformed bytes shown as replacement characters. -/
def displayText (path : Path) : Text := Utf8.decodeLossy path.bytes

/-- The text of a path with forward slashes also where it has backslashes. -/
def slashText (path : Path) : Text := Text.replaceChar '\\' '/' path.displayText

def isAbsolute (path : Path) : Bool := path.bytes.head? = some slash

/-! ## Components -/

/-- One step of a path. -/
inductive Component where
  | root
  | current
  | parent
  | name (bytes : List UInt8)
  deriving DecidableEq, Repr

namespace Component

def bytes : Component → List UInt8
  | root => [slash]
  | current => [dot]
  | parent => [dot, dot]
  | name bytes => bytes

def displayText (component : Component) : Text := Utf8.decodeLossy component.bytes

/-- The component that a stretch between two slashes names.  Empty stretches
and single dots name none. -/
def ofSegment? (segment : List UInt8) : Option Component :=
  if segment = [] ∨ segment = [dot] then none
  else if segment = [dot, dot] then some parent
  else some (name segment)

end Component

def segments (path : Path) : List (List UInt8) := Separated.split slash path.bytes

/-- What a path starts with beside its segments: the root, or the current
directory where the first segment is a single dot. -/
def start (path : Path) : List Component :=
  if path.isAbsolute then [.root]
  else if path.segments.head? = some [dot] then [.current]
  else []

/-- The components of a path.  Doubled and trailing slashes leave none, and
neither does a single dot anywhere but in front. -/
def components (path : Path) : List Component :=
  path.start ++ path.segments.filterMap Component.ofSegment?

/-! ## Joining -/

/-- A path continued by another one.  An absolute continuation replaces it;
else a slash stands between them unless the path is empty or already ends
with one. -/
def join (path continuation : Path) : Path :=
  if continuation.isAbsolute then continuation
  else if path.bytes = [] ∨ path.bytes.getLast? = some slash then
    ⟨path.bytes ++ continuation.bytes⟩
  else ⟨path.bytes ++ slash :: continuation.bytes⟩

def ofComponents (components : List Component) : Path :=
  components.foldl (fun path component => path.join ⟨component.bytes⟩) ⟨[]⟩

/-- The path of all components but the last.  Neither the root nor the empty
path has one. -/
def parent? (path : Path) : Option Path :=
  match path.components.getLast? with
  | none | some .root => none
  | some _ => some (ofComponents path.components.dropLast)

/-- The directory that holds a path; the path itself where nothing does. -/
def directory (path : Path) : Path := path.parent?.getD path

end Path

end PathAlias
