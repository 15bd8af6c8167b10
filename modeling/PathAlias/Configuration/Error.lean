import PathAlias.Json.Fault

/-!
Contract: why a configuration cannot be used.

Owns: the causes and their wording.

Does not own: the checks that find them.
-/

set_option autoImplicit false

namespace PathAlias

/-- Why a configuration cannot be used. -/
inductive ConfigurationError where
  | noConfiguration
  | noPaths
  | emptyPaths
  /-- An alias and an earlier one have the same stem. -/
  | stemTaken (pattern stem : Text)
  | unreadable (fault : Json.Fault)
  | unknownShape
  deriving DecidableEq, Repr

namespace ConfigurationError

/-- What every message about the text of a configuration starts with. -/
def invalidDocument : Text := "invalid configuration JSON: ".toList

def message : ConfigurationError → Text
  | noConfiguration =>
      "the \"configuration\" option cannot be empty; ".toList
        ++ "provide the tsconfig or compilerOptions object".toList
  | noPaths =>
      "unable to find the \"paths\" property in the supplied configuration".toList
  | emptyPaths => "the \"paths\" property must declare at least one alias".toList
  | stemTaken pattern stem =>
      "alias '".toList ++ pattern ++ "' collides with an earlier alias normalized to '".toList
        ++ stem ++ "'".toList
  | unreadable fault => invalidDocument ++ fault.message
  | unknownShape =>
      invalidDocument
        ++ "data did not match any variant of untagged enum AliasConfiguration".toList

end ConfigurationError

end PathAlias
