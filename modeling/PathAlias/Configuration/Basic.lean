import PathAlias.OrderedMap
import PathAlias.Text.Basic

/-!
Contract: path aliases as a user configures them.

Owns:
- the compiler options that matter here, and building them one by one;
- the two shapes of a configuration;
- equality of configurations up to the order of their aliases.

Does not own: the JSON form (`PathAlias.Configuration.Document`) and the
validated mapping (`PathAlias.Mapping.Basic`).  Nothing here is checked yet.
-/

set_option autoImplicit false

namespace PathAlias

/-- The candidate targets of an alias, in order of preference.  A null list is
told apart from an empty one. -/
abbrev Targets := Option (List Text)

/-- Patterns with their targets.  The order is the order of precedence. -/
abbrev AliasMap := OrderedMap Text Targets

/-- The compiler options that decide where a specifier leads. -/
structure PathOptions where
  baseUrl : Option Text
  paths : Option AliasMap
  deriving DecidableEq

namespace PathOptions

def empty : PathOptions := ⟨none, none⟩

def setBaseUrl (options : PathOptions) (baseUrl : Text) : PathOptions :=
  { options with baseUrl := some baseUrl }

/-- The options with one more alias.  An alias that is there keeps its place
and takes the new targets. -/
def addAlias (options : PathOptions) (pattern : Text) (targets : List Text) : PathOptions :=
  { options with
    paths := some ((options.paths.getD OrderedMap.empty).insert pattern (some targets)) }

/-- Whether two options agree up to the order of their aliases. -/
def agrees (left right : PathOptions) : Bool :=
  left.baseUrl = right.baseUrl
    && match left.paths, right.paths with
      | none, none => true
      | some leftMap, some rightMap => leftMap.sameEntries rightMap
      | _, _ => false

end PathOptions

/-- A configuration in either of its shapes. -/
inductive Configuration where
  /-- A project document, which holds its compiler options in a member. -/
  | nested (options : PathOptions)
  /-- The compiler options on their own. -/
  | flat (options : PathOptions)
  deriving DecidableEq

namespace Configuration

def options : Configuration → PathOptions
  | nested options => options
  | flat options => options

/-- Whether two configurations agree up to the order of their aliases.
Configurations of different shapes never do. -/
def agrees : Configuration → Configuration → Bool
  | nested left, nested right => left.agrees right
  | flat left, flat right => left.agrees right
  | _, _ => false

end Configuration

end PathAlias
