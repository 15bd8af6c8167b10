import PathAlias.Proofs.Mapping.Aliases
import PathAlias.Proofs.Path.Excursion
import PathAlias.Proofs.Project.Places

/-!
Contract: where a project lies does not matter to what stays inside it.

Owns:
- base directory and target as one path, for a relative base;
- the specifier between two ways that stay inside the working directory;
- the main statement: files and destinations inside the working directory get
  the same specifiers from every working directory.

Does not own: ways that leave the working directory, which can meet again by the
names above it.

The names of the working directory stand in front of both places.  A route shows
only what comes after a common start, so that they cancel, whatever they are and
whichever of them come again below.
-/

set_option autoImplicit false

namespace PathAlias

/-! ## Base directory and target as one path -/

theorem PathMapping.baseUrl_ne_nil {configuration : Option Configuration} {mapping : PathMapping}
    (validated : PathMapping.ofConfiguration configuration = .ok mapping) :
    mapping.baseUrl ≠ [] := by
  cases configuration with
  | none => cases validated
  | some configuration =>
      obtain ⟨map, -, -, normalized⟩ := PathMapping.ofConfiguration_eq_ok_iff.1 validated
      rw [normalized]
      exact PathMapping.normalizeBaseUrl_ne_nil configuration.options.baseUrl

namespace Project

/-- A relative base URL and a target lead where their text with a slash between
them leads from the working directory.  Slashes at the start of the target add
no steps. -/
theorem destinationNames_eq_reach {project : Project} (nonempty : project.mapping.baseUrl ≠ [])
    (relative : (Path.ofText project.mapping.baseUrl).isAbsolute = false) (substituted : Text) :
    project.destinationNames substituted
      = (Path.ofText (project.mapping.baseUrl ++ '/' :: substituted)).reach
          project.workingNames := by
  have wholeRelative :
      (Path.ofText (project.mapping.baseUrl ++ '/' :: substituted)).isAbsolute = false := by
    rw [Path.isAbsolute_ofText_append nonempty, relative]
  rw [Path.reach_of_relative wholeRelative, Path.steps_ofText_append,
    destinationNames_eq_foldl relative]

/-! ## Inside the working directory -/

/-- The specifier that two ways inside a directory have from one to the other:
from the place that holds the end of the first to the end of the second. -/
def innerSpecifier (importer destination : Path) : Text :=
  markRoute (Text.replaceChar '\\' '/' (Separated.join '/'
    ((Path.routeSteps importer.excursion.names.dropLast destination.excursion.names).map
      Path.Component.displayText)))

/-- Ways inside the working directory leave its names out of the specifier between
them. -/
theorem specifierTo_anchor_of_staysInside {project : Project}
    (absolute : project.workingDirectory.isAbsolute = true)
    {importer : Path} (relative : importer.isAbsolute = false) (inside : importer.StaysInside)
    (moving : importer.clean ≠ Path.ofText ['.'])
    {path : Path} (pathRelative : path.isAbsolute = false) (pathInside : path.StaysInside) :
    project.specifierTo importer (project.anchor path) = innerSpecifier importer path := by
  have origin : project.directoryNames importer
      = project.workingNames ++ importer.excursion.names.dropLast := by
    unfold directoryNames
    rw [Path.reach_of_staysInside relative inside, List.dropLast_append_of_ne_nil
      (Path.names_ne_nil_of_staysInside relative inside moving)]
  rw [anchor_eq_ofNames absolute,
    specifierTo_ofNames absolute importer (project.isName_of_mem_reached path), origin,
    Path.reach_of_staysInside pathRelative pathInside, Path.routeSteps_append]
  rfl

theorem destination_eq_anchor {project : Project}
    (absolute : project.workingDirectory.isAbsolute = true)
    (nonempty : project.mapping.baseUrl ≠ [])
    (relativeBase : (Path.ofText project.mapping.baseUrl).isAbsolute = false)
    (substituted : Text) :
    project.destination substituted
      = project.anchor (Path.ofText (project.mapping.baseUrl ++ '/' :: substituted)) := by
  rw [destination_eq_ofNames absolute, destinationNames_eq_reach nonempty relativeBase,
    anchor_eq_ofNames absolute]

theorem specifierTo_of_staysInside (project : Project)
    (absolute : project.workingDirectory.isAbsolute = true)
    (nonempty : project.mapping.baseUrl ≠ [])
    (relativeBase : (Path.ofText project.mapping.baseUrl).isAbsolute = false)
    {importer : Path} (relative : importer.isAbsolute = false) (inside : importer.StaysInside)
    (moving : importer.clean ≠ Path.ofText ['.']) {substituted : Text}
    (aimed : (Path.ofText (project.mapping.baseUrl ++ '/' :: substituted)).StaysInside) :
    project.specifierTo importer (project.destination substituted)
      = innerSpecifier importer
          (Path.ofText (project.mapping.baseUrl ++ '/' :: substituted)) := by
  have relativeWhole :
      (Path.ofText (project.mapping.baseUrl ++ '/' :: substituted)).isAbsolute = false := by
    rw [Path.isAbsolute_ofText_append nonempty, relativeBase]
  rw [destination_eq_anchor absolute nonempty relativeBase]
  exact specifierTo_anchor_of_staysInside absolute relative inside moving relativeWhole aimed

/-- **Results do not depend on where the project lies.**  A relative file and a
destination that both stay inside the working directory have the same specifier
between them in every absolute working directory. -/
theorem resolve?_eq_of_staysInside {configuration : Option Configuration}
    {mapping : PathMapping} (validated : PathMapping.ofConfiguration configuration = .ok mapping)
    (relativeBase : (Path.ofText mapping.baseUrl).isAbsolute = false)
    {first second : Path} (firstAbsolute : first.isAbsolute = true)
    (secondAbsolute : second.isAbsolute = true)
    {importer : Path} (relative : importer.isAbsolute = false) (inside : importer.StaysInside)
    (moving : importer.clean ≠ Path.ofText ['.']) {specifier : Text}
    (aimed : ∀ substituted, mapping.substitute? specifier = some substituted →
      (Path.ofText (mapping.baseUrl ++ '/' :: substituted)).StaysInside) :
    (Project.mk mapping first).resolve? importer specifier
      = (Project.mk mapping second).resolve? importer specifier := by
  have nonempty := PathMapping.baseUrl_ne_nil validated
  unfold resolve?
  cases isSubstituted : mapping.substitute? specifier with
  | none => rfl
  | some substituted =>
      have inner := aimed substituted isSubstituted
      have fromFirst := (Project.mk mapping first).specifierTo_of_staysInside firstAbsolute
        nonempty relativeBase relative inside moving inner
      have fromSecond := (Project.mk mapping second).specifierTo_of_staysInside secondAbsolute
        nonempty relativeBase relative inside moving inner
      simp only [Option.map_some]
      rw [fromFirst, fromSecond]

def sharedPackage : PathMapping where
  baseUrl := "packages/./app".toList
  aliases := ⟨[Alias.ofTargets "@/*".toList (some ["../shared/*".toList])], by decide +kernel⟩

/-- A working directory with a name of its own project in it, a backslash and a
byte that no text has. -/
def oddDirectory : Path :=
  ⟨Utf8.encode "/a\\b/../packages/".toList ++ 0xFF :: Utf8.encode "/./src//".toList⟩

theorem resolve?_eq_of_staysInside_sharedPackage :
    PathMapping.ofConfiguration (some (.nested
          ((PathOptions.empty.setBaseUrl "packages/./app".toList).addAlias "@/*".toList
            ["../shared/*".toList])))
        = .ok sharedPackage
      ∧ (Project.mk sharedPackage (Path.ofText "/".toList)).resolve?
          (Path.ofText "packages/../src/pages/home.ts".toList) "@//x/../lib.ts".toList
        = some "../../packages/shared/lib.ts".toList
      ∧ (Project.mk sharedPackage (Path.ofText "/".toList)).resolve?
          (Path.ofText "packages/../src/pages/home.ts".toList) "@//x/../lib.ts".toList
        = (Project.mk sharedPackage oddDirectory).resolve?
          (Path.ofText "packages/../src/pages/home.ts".toList) "@//x/../lib.ts".toList := by
  have validated : PathMapping.ofConfiguration (some (.nested
      ((PathOptions.empty.setBaseUrl "packages/./app".toList).addAlias "@/*".toList
        ["../shared/*".toList]))) = .ok sharedPackage := by rfl
  have aimed : ∀ substituted, sharedPackage.substitute? "@//x/../lib.ts".toList
      = some substituted →
      (Path.ofText (sharedPackage.baseUrl ++ '/' :: substituted)).StaysInside := by
    intro substituted isSubstituted
    have isTarget : sharedPackage.substitute? "@//x/../lib.ts".toList
        = some "../shared//x/../lib.ts".toList := by decide +kernel
    cases isTarget.symm.trans isSubstituted
    decide +kernel
  refine ⟨validated, by decide +kernel, ?_⟩
  apply resolve?_eq_of_staysInside validated
  case relativeBase => decide +kernel
  case firstAbsolute => decide +kernel
  case secondAbsolute => decide +kernel
  case relative => decide +kernel
  case inside => decide +kernel
  case moving => decide +kernel
  case aimed => exact aimed

end Project

end PathAlias
