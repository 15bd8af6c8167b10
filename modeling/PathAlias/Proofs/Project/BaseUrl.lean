import PathAlias.Proofs.Mapping.Aliases
import PathAlias.Proofs.OrderedMap
import PathAlias.Proofs.Project.Places

/-!
Contract: a base URL may as well stand in front of every target.

Owns:
- a pattern with a base URL in front, and what becomes of its wildcard;
- a map with a base URL in front of every target, and what is substituted then;
- the main statement: a configuration with a base URL, and one without it whose
  targets all begin with it, resolve alike.

Does not own: absolute base URLs, whose first slash goes with the leading slashes
of a target, and targets that are a bare `*`, of which the slash in front makes a
wildcard.

One of them anchors the base URL and then the target, and the other one anchors
both at once.  Anchoring is a walk, and to walk along two paths one after the
other is to walk along the text of both.
-/

set_option autoImplicit false

namespace PathAlias

/-! ## A base URL in front of a target -/

/-- A target with a base URL in front of it. -/
def underBase (baseUrl target : Text) : Text := baseUrl ++ '/' :: target

theorem underBase_append (baseUrl target rest : Text) :
    underBase baseUrl target ++ rest = underBase baseUrl (target ++ rest) := by
  unfold underBase
  rw [List.append_assoc, List.cons_append]

/-- The slash in front makes a wildcard only of a star that stands alone. -/
theorem wildcard_suffix_underBase_iff (baseUrl : Text) {target : Text}
    (notBare : target ≠ ['*']) :
    wildcard <:+ underBase baseUrl target ↔ wildcard <:+ target := by
  have isEnd : target <:+ underBase baseUrl target :=
    (List.suffix_cons '/' target).trans (List.suffix_append baseUrl _)
  refine ⟨?_, fun ended => ended.trans isEnd⟩
  intro ended
  rcases List.suffix_or_suffix_of_suffix ended isEnd with whole | short
  · exact whole
  · -- the target is at most as long as the wildcard
    rcases List.suffix_cons_iff.1 short with rfl | shorter
    · exact List.suffix_rfl
    · rcases List.suffix_cons_iff.1 shorter with bare | nothing
      · exact absurd bare notBare
      · rw [List.suffix_nil] at nothing
        subst nothing
        obtain ⟨front, isWhole⟩ := ended
        have last := congrArg List.getLast? isWhole
        simp [wildcard, underBase] at last

theorem withoutWildcard_underBase (baseUrl : Text) {target : Text} (notBare : target ≠ ['*']) :
    withoutWildcard (underBase baseUrl target) = underBase baseUrl (withoutWildcard target) := by
  unfold withoutWildcard
  simp only [List.isSuffixOf_iff_suffix, wildcard_suffix_underBase_iff baseUrl notBare]
  split
  · rename_i ended
    have nonempty : target ≠ [] := by
      rintro rfl
      exact absurd (List.suffix_nil.1 ended) (by decide)
    unfold underBase
    rw [List.dropLast_append_of_ne_nil (by simp), List.dropLast_cons_of_ne_nil nonempty]
  · rfl

def AliasMap.underBase (map : AliasMap) (baseUrl : Text) : AliasMap :=
  map.mapValues fun targets => targets.map (List.map (PathAlias.underBase baseUrl))

def Alias.underBase (baseUrl : Text) (candidate : Alias) : Alias :=
  { candidate with target := candidate.target.map (PathAlias.underBase baseUrl) }

theorem Alias.ofTargets_underBase (baseUrl pattern : Text) {targets : Targets}
    (notBare : targets.bind List.head? ≠ some ['*']) :
    ofTargets pattern (targets.map (List.map (PathAlias.underBase baseUrl)))
      = (ofTargets pattern targets).underBase baseUrl := by
  cases targets with
  | none => rfl
  | some listed =>
      cases listed with
      | nil => rfl
      | cons first others =>
          have firstNotBare : first ≠ ['*'] := fun bare => notBare (congrArg some bare)
          simp [ofTargets, underBase, withoutWildcard_underBase baseUrl firstNotBare]

namespace Aliases

section

variable {map : AliasMap} (notBare : ∀ entry ∈ map.entries, entry.2.bind List.head? ≠ some ['*'])

include notBare

theorem candidates_underBase (baseUrl : Text) :
    candidates (map.underBase baseUrl) = (candidates map).map (Alias.underBase baseUrl) := by
  unfold candidates AliasMap.underBase OrderedMap.mapValues
  rw [List.map_map, List.map_map]
  apply List.map_congr_left
  intro entry member
  exact Alias.ofTargets_underBase baseUrl entry.1 (notBare entry member)

theorem exists_ofMap_underBase {aliases : Aliases} (listed : ofMap map = .ok aliases)
    (baseUrl : Text) :
    ∃ based, ofMap (map.underBase baseUrl) = .ok based
      ∧ based.toList = aliases.toList.map (Alias.underBase baseUrl) := by
  have isListed := ofMap_eq_ok_iff.1 listed
  have nonempty : (map.underBase baseUrl).entries ≠ [] := by
    simpa [AliasMap.underBase, OrderedMap.mapValues] using isListed.1
  have sameStems : (candidates (map.underBase baseUrl)).map Alias.stem
      = (candidates map).map Alias.stem := by
    rw [candidates_underBase notBare baseUrl, List.map_map]
    rfl
  obtain ⟨based, basedListed, isBased⟩ := exists_ofMap_eq_ok nonempty
    (sameStems ▸ nodup_stem_candidates listed)
  refine ⟨based, basedListed, ?_⟩
  rw [isBased, candidates_underBase notBare baseUrl, isListed.2]

end

theorem find?_underBase {aliases based : Aliases} {baseUrl : Text}
    (isBased : based.toList = aliases.toList.map (Alias.underBase baseUrl)) (specifier : Text) :
    based.find? specifier = (aliases.find? specifier).map (Alias.underBase baseUrl) := by
  unfold find?
  rw [isBased, List.find?_map]
  rfl

end Aliases

/-- With the base URL in front of every target, it stands in front of all that is
substituted. -/
theorem PathMapping.substitute?_underBase {first second : PathMapping} {baseUrl : Text}
    (isBased : second.aliases.toList = first.aliases.toList.map (Alias.underBase baseUrl))
    (specifier : Text) :
    second.substitute? specifier
      = (first.substitute? specifier).map (PathAlias.underBase baseUrl) := by
  unfold substitute?
  rw [Aliases.find?_underBase isBased]
  cases first.aliases.find? specifier with
  | none => rfl
  | some used =>
      change (used.underBase baseUrl).substitute? specifier
        = (used.substitute? specifier).map (PathAlias.underBase baseUrl)
      unfold Alias.substitute? Alias.underBase
      rw [Option.map_map, Option.map_map]
      cases used.target with
      | none => rfl
      | some target => exact congrArg some (underBase_append baseUrl target _)

/-! ## The same places -/

namespace PathMapping

theorem steps_normalizeBaseUrl (baseUrl : Text) :
    (Path.ofText (normalizeBaseUrl (some baseUrl))).steps = (Path.ofText baseUrl).steps
      ∧ (Path.ofText (normalizeBaseUrl (some baseUrl))).isAbsolute
        = (Path.ofText baseUrl).isAbsolute := by
  unfold normalizeBaseUrl
  split
  · contradiction
  · rename_i empty
    cases empty
    decide
  · rename_i current
    cases current
    decide
  · rename_i isBaseUrl
    cases isBaseUrl
    exact ⟨rfl, rfl⟩

end PathMapping

namespace Project

/-- Projects in one absolute place have the same specifiers to the same
destinations. -/
theorem specifierTo_eq_of_destinationNames {first second : Project}
    (absolute : first.workingDirectory.isAbsolute = true)
    (sameDirectory : first.workingDirectory = second.workingDirectory) (importer : Path)
    {firstText secondText : Text}
    (sameNames : first.destinationNames firstText = second.destinationNames secondText) :
    first.specifierTo importer (first.destination firstText)
      = second.specifierTo importer (second.destination secondText) := by
  have sameOrigin : first.directoryNames importer = second.directoryNames importer := by
    unfold directoryNames workingNames
    rw [sameDirectory]
  rw [specifierTo_destination absolute, specifierTo_destination (sameDirectory ▸ absolute),
    sameOrigin, sameNames]

section

variable {based folded : Project} {baseUrl : Text}
  (sameDirectory : based.workingDirectory = folded.workingDirectory)
  (hasBase : based.mapping.baseUrl = PathMapping.normalizeBaseUrl (some baseUrl))
  (hasNone : folded.mapping.baseUrl = PathMapping.normalizeBaseUrl none)
  (relative : baseUrl.head? ≠ some '/')

include sameDirectory hasBase hasNone relative

theorem destinationNames_underBase (substituted : Text) :
    based.destinationNames substituted
      = folded.destinationNames (underBase baseUrl substituted) := by
  obtain ⟨sameSteps, sameStart⟩ := PathMapping.steps_normalizeBaseUrl baseUrl
  have basedRelative : (Path.ofText based.mapping.baseUrl).isAbsolute = false := by
    rw [hasBase, sameStart, ← Bool.not_eq_true, Path.isAbsolute_ofText_iff]
    exact relative
  have foldedRelative : (Path.ofText folded.mapping.baseUrl).isAbsolute = false := by
    rw [hasNone]
    rfl
  have noSteps : (Path.ofText folded.mapping.baseUrl).steps = [] := by
    rw [hasNone]
    rfl
  rw [destinationNames_eq_foldl basedRelative, destinationNames_eq_foldl foldedRelative, hasBase,
    sameSteps, noSteps, List.nil_append, underBase, Path.steps_ofText_append]
  unfold workingNames
  rw [sameDirectory]

theorem resolve?_underBase (absolute : based.workingDirectory.isAbsolute = true)
    (isBased : folded.mapping.aliases.toList
      = based.mapping.aliases.toList.map (Alias.underBase baseUrl))
    (importer : Path) (specifier : Text) :
    based.resolve? importer specifier = folded.resolve? importer specifier := by
  unfold resolve?
  rw [PathMapping.substitute?_underBase isBased, Option.map_map]
  congr 1
  funext substituted
  exact specifierTo_eq_of_destinationNames absolute sameDirectory importer
    (destinationNames_underBase sameDirectory hasBase hasNone relative substituted)

end

/-- **A base URL may as well stand in front of every target.**  When no alias has
a bare `*` as its first target, a configuration with a relative base URL, and
the one without it whose targets all begin with it, both have projects, and
these resolve alike. -/
theorem resolve?_eq_of_underBase {map : AliasMap} {aliases : Aliases}
    (listed : Aliases.ofMap map = .ok aliases)
    (notBare : ∀ entry ∈ map.entries, entry.2.bind List.head? ≠ some ['*'])
    {baseUrl : Text} (relative : baseUrl.head? ≠ some '/')
    {configuration folded : Configuration}
    (based : configuration.options = ⟨some baseUrl, some map⟩)
    (unbased : folded.options = ⟨none, some (map.underBase baseUrl)⟩)
    {workingDirectory : Path} (absolute : workingDirectory.isAbsolute = true) :
    ∃ project foldedProject,
      ofConfiguration (some configuration) workingDirectory = .ok project
        ∧ ofConfiguration (some folded) workingDirectory = .ok foldedProject
        ∧ ∀ importer specifier,
          project.resolve? importer specifier = foldedProject.resolve? importer specifier := by
  obtain ⟨foldedAliases, foldedListed, isBased⟩ :=
    Aliases.exists_ofMap_underBase notBare listed baseUrl
  refine ⟨_, _, ofConfiguration_of_ofMap based listed workingDirectory,
    ofConfiguration_of_ofMap unbased foldedListed workingDirectory, ?_⟩
  intro importer specifier
  apply resolve?_underBase
  case relative => exact relative
  case absolute => exact absolute
  case isBased => exact isBased
  all_goals rfl

/-- Aliases with targets that climb out of the base directory, that are none, and
that start with a slash. -/
def scatteredTargets : AliasMap :=
  ⟨[("@/*".toList, some ["../src//*".toList]), ("@none".toList, none),
    ("~".toList, some ["/lib/".toList, "*".toList])], by decide +kernel⟩

theorem resolve?_eq_of_underBase_scatteredTargets :
    (∀ entry ∈ scatteredTargets.entries, entry.2.bind List.head? ≠ some ['*'])
      ∧ "./packages/app".toList.head? ≠ some '/'
      ∧ (Path.ofText "/w/./".toList).isAbsolute = true
      ∧ ∃ project foldedProject,
        ofConfiguration
            (some (.nested ⟨some "./packages/app".toList, some scatteredTargets⟩))
            (Path.ofText "/w/./".toList) = .ok project
          ∧ ofConfiguration
            (some (.flat ⟨none, some (scatteredTargets.underBase "./packages/app".toList)⟩))
            (Path.ofText "/w/./".toList) = .ok foldedProject
          ∧ project.resolve? (Path.ofText "src/i.ts".toList) "@/x/../../y".toList
            = some "../packages/y".toList
          ∧ project.resolve? (Path.ofText "src/i.ts".toList) "@/x/../../y".toList
            = foldedProject.resolve? (Path.ofText "src/i.ts".toList) "@/x/../../y".toList := by
  have notBare : ∀ entry ∈ scatteredTargets.entries, entry.2.bind List.head? ≠ some ['*'] := by
    decide +kernel
  have relative : "./packages/app".toList.head? ≠ some '/' := by decide +kernel
  have absolute : (Path.ofText "/w/./".toList).isAbsolute = true := by decide +kernel
  have based : (Configuration.nested
      ⟨some "./packages/app".toList, some scatteredTargets⟩).options
      = ⟨some "./packages/app".toList, some scatteredTargets⟩ := rfl
  have unbased : (Configuration.flat
      ⟨none, some (scatteredTargets.underBase "./packages/app".toList)⟩).options
      = ⟨none, some (scatteredTargets.underBase "./packages/app".toList)⟩ := rfl
  obtain ⟨aliases, listed⟩ : ∃ aliases, Aliases.ofMap scatteredTargets = .ok aliases := ⟨_, rfl⟩
  obtain ⟨project, foldedProject, built, foldedBuilt, same⟩ :=
    resolve?_eq_of_underBase listed notBare relative based unbased absolute
  refine ⟨notBare, relative, absolute, project, foldedProject, built, foldedBuilt, ?_, same _ _⟩
  cases built
  decide +kernel

/-- A bare star is no wildcard, and becomes one behind a base URL. -/
example :
    withoutWildcard ['*'] = ['*']
      ∧ withoutWildcard (underBase "src".toList ['*']) = "src/".toList := by
  decide +kernel

end Project

end PathAlias
