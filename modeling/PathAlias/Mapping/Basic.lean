import PathAlias.Mapping.Aliases

/-!
Contract: a validated configuration.

Owns: the path mapping, and the checks that a configuration passes to become
one.

Does not own: the working directory that a mapping is used from.
-/

set_option autoImplicit false

namespace PathAlias

/-- What decides where a specifier leads, apart from the working directory. -/
structure PathMapping where
  baseUrl : Text
  aliases : Aliases
  deriving DecidableEq

namespace PathMapping

def defaultBaseUrl : Text := ['.', '/']

/-- The base URL that a configured one stands for.  An absent one, an empty
one and a single dot all mean the default. -/
def normalizeBaseUrl : Option Text → Text
  | none | some [] | some ['.'] => defaultBaseUrl
  | some baseUrl => baseUrl

def hasDefaultBaseUrl (mapping : PathMapping) : Bool := mapping.baseUrl = defaultBaseUrl

/-- The mapping of compiler options.  Aliases must be there, at least one, and
with distinct stems. -/
def ofOptions (options : PathOptions) : Except ConfigurationError PathMapping :=
  match options.paths with
  | none => .error .noPaths
  | some map => do
      let aliases ← Aliases.ofMap map
      return ⟨normalizeBaseUrl options.baseUrl, aliases⟩

def ofConfiguration : Option Configuration → Except ConfigurationError PathMapping
  | none => .error .noConfiguration
  | some configuration => ofOptions configuration.options

end PathMapping

end PathAlias
