import PathAlias.Project.Basic
import PathAlias.Proofs.Path.Route

/-!
Contract: the places of a project as names from the root down.

Owns:
- the names of the working directory, of the directory of a file, and of the
  destination of a substituted specifier;
- a substituted specifier as a relative path, whatever slashes it starts with;
- the specifier between a file and a destination, as the steps of a route.

Does not own: where the route leads (`PathAlias.Proofs.Project.Destination`), or
how it looks (`PathAlias.Proofs.Project.Explicit`).
-/

set_option autoImplicit false

namespace PathAlias.Project

def workingNames (project : Project) : List (List UInt8) := project.workingDirectory.reach []

def directoryNames (project : Project) (file : Path) : List (List UInt8) :=
  (file.reach project.workingNames).dropLast

/-- The names of the place that a substituted specifier leads to. -/
def destinationNames (project : Project) (substituted : Text) : List (List UInt8) :=
  (Path.ofText (dropLeadingSlashes substituted)).reach
    ((Path.ofText project.mapping.baseUrl).reach project.workingNames)

theorem isAbsolute_dropLeadingSlashes (text : Text) :
    (Path.ofText (dropLeadingSlashes text)).isAbsolute = false := by
  rw [← Bool.not_eq_true, Path.isAbsolute_ofText_iff]
  intro begins
  have stopped := List.head?_dropWhile_not (· = '/') text
  unfold dropLeadingSlashes at begins
  rw [begins] at stopped
  simp at stopped

theorem steps_dropLeadingSlashes (text : Text) :
    (Path.ofText (dropLeadingSlashes text)).steps = (Path.ofText text).steps := by
  induction text with
  | nil => rfl
  | cons symbol rest inductionHypothesis =>
      unfold dropLeadingSlashes
      by_cases isSlash : symbol = '/'
      · subst isSlash
        rw [List.dropWhile_cons_of_pos (by simp)]
        exact inductionHypothesis.trans (Path.steps_ofText_append [] rest).symm
      · rw [List.dropWhile_cons_of_neg (by simpa using isSlash)]

/-- A relative base URL and a substituted specifier lead along the steps of both,
one after the other. -/
theorem destinationNames_eq_foldl {project : Project}
    (relative : (Path.ofText project.mapping.baseUrl).isAbsolute = false) (substituted : Text) :
    project.destinationNames substituted
      = ((Path.ofText project.mapping.baseUrl).steps ++ (Path.ofText substituted).steps).foldl
          Path.walk project.workingNames := by
  unfold destinationNames
  rw [Path.reach_of_relative (isAbsolute_dropLeadingSlashes substituted),
    Path.reach_of_relative relative, steps_dropLeadingSlashes, List.foldl_append]

theorem isName_of_mem_reached (project : Project) (path : Path) :
    ∀ bytes ∈ path.reach project.workingNames, Path.IsName bytes :=
  Path.isName_of_mem_reach (Path.isName_of_mem_workingNames project.workingDirectory) path

theorem isName_of_mem_directoryNames (project : Project) (file : Path) :
    ∀ bytes ∈ project.directoryNames file, Path.IsName bytes := by
  intro bytes member
  exact project.isName_of_mem_reached file bytes (List.dropLast_subset _ member)

theorem isName_of_mem_destinationNames (project : Project) (substituted : Text) :
    ∀ bytes ∈ project.destinationNames substituted, Path.IsName bytes :=
  Path.isName_of_mem_reach (project.isName_of_mem_reached _) _

section

variable {project : Project} (absolute : project.workingDirectory.isAbsolute = true)

include absolute

theorem anchor_eq_ofNames (path : Path) :
    project.anchor path = Path.ofNames (path.reach project.workingNames) :=
  Path.anchor_eq_ofNames absolute path

theorem directoryOf_eq_ofNames (file : Path) :
    project.directoryOf file = Path.ofNames (project.directoryNames file) := by
  unfold directoryOf
  rw [anchor_eq_ofNames absolute, Path.directory_ofNames]
  · rfl
  · exact project.isName_of_mem_reached file

theorem destination_eq_ofNames (substituted : Text) :
    project.destination substituted = Path.ofNames (project.destinationNames substituted) := by
  unfold destination baseDirectory
  rw [anchor_eq_ofNames absolute, anchor_eq_ofNames absolute, Path.reach_join, Path.reach_ofNames]
  · rfl
  · exact project.isName_of_mem_reached _

/-- The specifier to a place shows the steps from the directory of the file, each
with forward slashes. -/
theorem specifierTo_ofNames (file : Path) {names : List (List UInt8)}
    (proper : ∀ bytes ∈ names, Path.IsName bytes) :
    project.specifierTo file (Path.ofNames names)
      = markRoute (Text.replaceChar '\\' '/' (Separated.join '/'
          ((Path.routeSteps (project.directoryNames file) names).map
            Path.Component.displayText))) := by
  unfold specifierTo
  rw [directoryOf_eq_ofNames absolute, Path.relative_ofNames _ proper]
  exact isName_of_mem_directoryNames project file

theorem specifierTo_destination (file : Path) (substituted : Text) :
    project.specifierTo file (project.destination substituted)
      = markRoute (Text.replaceChar '\\' '/' (Separated.join '/'
          ((Path.routeSteps (project.directoryNames file)
            (project.destinationNames substituted)).map Path.Component.displayText))) := by
  rw [destination_eq_ofNames absolute]
  exact specifierTo_ofNames absolute file (isName_of_mem_destinationNames project substituted)

end

end PathAlias.Project
