import PathAlias.Configuration.Basic
import PathAlias.Configuration.Error
import PathAlias.Json.Printer
import PathAlias.Json.Reader

/-!
Contract: configurations as JSON.

Owns:
- the value that a configuration is written as;
- the configuration that a value or a text describes.

Does not own: the JSON format.

A project document is tried first.  Where it does not fit, for whatever
reason, the whole value is tried as compiler options on their own.
-/

set_option autoImplicit false

namespace PathAlias

def compilerOptionsName : Text := "compilerOptions".toList

def baseUrlName : Text := "baseUrl".toList

def pathsName : Text := "paths".toList

/-! ## Values to options -/

namespace Json

def optionalText? : Json → Option (Option Text)
  | null => some none
  | string text => some (some text)
  | _ => none

def text? : Json → Option Text
  | string text => some text
  | _ => none

def targets? : Json → Option Targets
  | null => some none
  | array items => (items.mapM text?).map some
  | _ => none

def aliases? (members : List (Text × Json)) : Option (List (Text × Targets)) :=
  members.mapM fun (pattern, value) => (targets? value).map (pattern, ·)

/-- Aliases with their targets or null.  A repeated alias keeps its first
place and its last targets, and all its targets must fit. -/
def optionalMap? : Json → Option (Option AliasMap)
  | null => some none
  | object members => (aliases? members).map fun aliases => some (OrderedMap.ofList aliases)
  | _ => none

def optionsOf? (baseUrl paths : Json) : Option PathOptions := do
  return ⟨← optionalText? baseUrl, ← optionalMap? paths⟩

/-- Compiler options, as an object or as a list of at most two values.  Other
members of the object do not matter, but neither of its own may be given
twice. -/
def options? : Json → Option PathOptions
  | object members => do
      optionsOf? (← memberOrNull? baseUrlName members) (← memberOrNull? pathsName members)
  | array [] => optionsOf? null null
  | array [baseUrl] => optionsOf? baseUrl null
  | array [baseUrl, paths] => optionsOf? baseUrl paths
  | _ => none

/-- The compiler options of a project document, which are never null. -/
def nestedOptions? : Json → Option PathOptions
  | object members => do options? (← memberOrNull? compilerOptionsName members)
  | _ => none

end Json

namespace Configuration

def ofJson? (value : Json) : Option Configuration :=
  match value.nestedOptions? with
  | some options => some (nested options)
  | none => value.options?.map flat

def ofJson (value : Json) : Except ConfigurationError Configuration :=
  match ofJson? value with
  | some configuration => .ok configuration
  | none => .error .unknownShape

/-- What the readers of a document found, as a configuration error. -/
def liftFault {Result : Type} : Except Json.Fault Result → Except ConfigurationError Result
  | .ok result => .ok result
  | .error fault => .error (.unreadable fault)

/-- The configuration that a text describes.  The shape is judged before the
text after the value is. -/
def ofText (text : Text) : Except ConfigurationError Configuration := do
  let (value, rest) ← liftFault (Json.readFront text)
  let configuration ← ofJson value
  liftFault (Json.readEnd rest)
  return configuration

/-- The configuration that a text describes when it is read as a whole first
and its repeated members are merged. -/
def ofMergedText (text : Text) : Except ConfigurationError Configuration := do
  let value ← liftFault (Json.readDocument text)
  ofJson value.merged

end Configuration

/-! ## Options to values -/

def Targets.toJson : Targets → Json
  | none => .null
  | some targets => .array (targets.map .string)

def AliasMap.toJson (map : AliasMap) : Json :=
  .object (map.entries.map fun (pattern, targets) => (pattern, Targets.toJson targets))

/-- Compiler options as a value, without the members that are absent. -/
def PathOptions.toJson (options : PathOptions) : Json :=
  .object
    ((options.baseUrl.map fun baseUrl => (baseUrlName, Json.string baseUrl)).toList
      ++ (options.paths.map fun map => (pathsName, AliasMap.toJson map)).toList)

namespace Configuration

def toJson : Configuration → Json
  | nested options => .object [(compilerOptionsName, options.toJson)]
  | flat options => options.toJson

def toText (configuration : Configuration) : Text := configuration.toJson.render

end Configuration

end PathAlias
