import Mathlib.Data.List.Perm.Basic
import PathAlias.Project.File
import PathAlias.Proofs.Mapping.Aliases
import PathAlias.Proofs.OrderedMap

/-!
Contract: which of several aliases wins, and where nobody can tell.

Owns:
- the law that a project edits files by what it resolves and by nothing else;
- aliases that do not overlap, and look-up among them in whatever order;
- look-up without an alias that an earlier one covers;
- the main statements: the order of aliases only matters where two of them
  overlap, and an alias behind one that covers it is dead.

Does not own: where a specifier leads once its alias is found.

A specifier falls under two aliases only when the stem of one starts the stem of
the other.  Where none does, the alias in use is told by membership alone, and
membership has no order.
-/

set_option autoImplicit false

namespace PathAlias

/-! ## What a project resolves decides what it does -/

namespace Project

section

variable {first second : Project} (same : first.resolve? = second.resolve?)

include same

theorem editReference_congr : first.editReference = second.editReference := by
  unfold editReference
  rw [same]

theorem editLines_congr : first.editLines = second.editLines := by
  unfold editLines
  rw [editReference_congr same]

theorem reviseText_congr : first.reviseText = second.reviseText := by
  unfold reviseText
  rw [editLines_congr same]

theorem editFile_congr : first.editFile = second.editFile := by
  unfold editFile
  rw [reviseText_congr same]

end

/-- Projects in one place that find the same aliases resolve alike. -/
theorem resolve?_eq_of_find? {first second : Project}
    (sameDirectory : first.workingDirectory = second.workingDirectory)
    (sameBase : first.mapping.baseUrl = second.mapping.baseUrl)
    (sameAliases : first.mapping.aliases.find? = second.mapping.aliases.find?) :
    first.resolve? = second.resolve? := by
  have substituted : first.mapping.substitute? = second.mapping.substitute? := by
    unfold PathMapping.substitute?
    rw [sameAliases]
  have anchored : first.anchor = second.anchor := by
    unfold anchor
    rw [sameDirectory]
  have based : first.baseDirectory = second.baseDirectory := by
    unfold baseDirectory
    rw [anchored, sameBase]
  unfold resolve? specifierTo directoryOf destination
  rw [substituted, anchored, based]

end Project

/-! ## Look-up -/

namespace Aliases

/-- No alias of the list covers the stem of another one. -/
def Apart (aliases : Aliases) : Prop :=
  ∀ first ∈ aliases.toList, ∀ second ∈ aliases.toList, first ≠ second →
    ¬ first.stem <+: second.stem

instance (aliases : Aliases) : Decidable aliases.Apart :=
  inferInstanceAs (Decidable (∀ first ∈ aliases.toList, ∀ second ∈ aliases.toList,
    first ≠ second → ¬ first.stem <+: second.stem))

theorem covers_iff {candidate : Alias} {specifier : Text} :
    candidate.covers specifier = true ↔ candidate.stem <+: specifier :=
  List.isPrefixOf_iff_prefix

theorem covers_of_find? {aliases : Aliases} {specifier : Text} {used : Alias}
    (found : aliases.find? specifier = some used) :
    used ∈ aliases.toList ∧ used.stem <+: specifier := by
  unfold find? at found
  have covered := List.find?_some found
  exact ⟨List.mem_of_find?_eq_some found, covers_iff.1 covered⟩

/-- Among aliases that do not overlap, the one in use is the one that covers the
specifier, wherever it stands. -/
theorem find?_eq_some_iff_of_apart {aliases : Aliases} (apart : aliases.Apart)
    {specifier : Text} {used : Alias} :
    aliases.find? specifier = some used
      ↔ used ∈ aliases.toList ∧ used.stem <+: specifier := by
  refine ⟨covers_of_find?, ?_⟩
  intro covering
  cases found : aliases.find? specifier with
  | none =>
      have passed := List.find?_eq_none.1 found used covering.1
      exact absurd (covers_iff.2 covering.2) passed
  | some other =>
      have otherCovers := covers_of_find? found
      -- of two stems that start one specifier, one starts the other
      by_contra different
      have unequal : other ≠ used := fun equal => different (congrArg some equal)
      rcases List.prefix_or_prefix_of_prefix otherCovers.2 covering.2 with inUsed | inOther
      · exact apart other otherCovers.1 used covering.1 unequal inUsed
      · exact apart used covering.1 other otherCovers.1 unequal.symm inOther

theorem find?_eq_of_perm {left right : Aliases} (permutation : left.toList.Perm right.toList)
    (apart : left.Apart) : left.find? = right.find? := by
  have rightApart : right.Apart := by
    intro first firstMember second secondMember
    exact apart first (permutation.mem_iff.2 firstMember) second
      (permutation.mem_iff.2 secondMember)
  funext specifier
  apply Option.ext
  intro used
  rw [find?_eq_some_iff_of_apart apart, find?_eq_some_iff_of_apart rightApart,
    permutation.mem_iff]

/-- An alias behind one that covers its stem is never found. -/
theorem find?_eq_of_covered {aliases fewer : Aliases} {earlier later : Nat}
    (before : earlier < later) {covering covered : Alias}
    (isCovering : aliases.toList[earlier]? = some covering)
    (isCovered : aliases.toList[later]? = some covered)
    (remaining : fewer.toList = aliases.toList.eraseIdx later)
    (covers : covering.stem <+: covered.stem) : aliases.find? = fewer.find? := by
  obtain ⟨inRange, rfl⟩ := List.getElem?_eq_some_iff.1 isCovered
  have divided : aliases.toList = aliases.toList.take later
      ++ aliases.toList[later] :: aliases.toList.drop (later + 1) := by
    rw [List.getElem_cons_drop, List.take_append_drop]
  have inFront : covering ∈ aliases.toList.take later := by
    apply List.mem_of_getElem?
    rw [List.getElem?_take_of_lt before, isCovering]
  funext specifier
  unfold find?
  rw [remaining, List.eraseIdx_eq_take_drop_succ]
  conv_lhs => rw [divided]
  rw [List.find?_append, List.find?_append]
  cases found : (aliases.toList.take later).find? fun candidate => candidate.covers specifier with
  | some first => rfl
  | none =>
      have passed : ¬ covering.stem <+: specifier := by
        rw [← covers_iff]
        exact List.find?_eq_none.1 found covering inFront
      have uncovered : ¬ aliases.toList[later].covers specifier = true := by
        rw [covers_iff]
        intro isPrefix
        exact passed (covers.trans isPrefix)
      exact congrArg _ (List.find?_cons_of_neg uncovered)

end Aliases

/-! ## The order of aliases -/

/-- Configurations that agree have one base URL, and list the same aliases in
some order. -/
theorem Configuration.perm_of_agrees {left right : Configuration}
    (agree : left.agrees right = true) {leftMap rightMap : AliasMap}
    (leftPaths : left.options.paths = some leftMap)
    (rightPaths : right.options.paths = some rightMap) :
    left.options.baseUrl = right.options.baseUrl ∧ leftMap.entries.Perm rightMap.entries := by
  have agreeing : left.options.agrees right.options = true := by
    cases left with
    | nested leftOptions =>
        cases right with
        | nested rightOptions => exact agree
        | flat rightOptions => cases agree
    | flat leftOptions =>
        cases right with
        | nested rightOptions => cases agree
        | flat rightOptions => exact agree
  unfold PathOptions.agrees at agreeing
  rw [leftPaths, rightPaths, Bool.and_eq_true, decide_eq_true_iff] at agreeing
  exact ⟨agreeing.1, OrderedMap.sameEntries_iff_perm.1 agreeing.2⟩

namespace Project

/-- **The order of aliases only matters where two of them overlap.**  Projects of
configurations that agree up to order do the same to every file, as long as no
alias covers the stem of another one. -/
theorem editFile_eq_of_agrees {left right : Configuration} (agree : left.agrees right = true)
    {workingDirectory : Path} {leftProject rightProject : Project}
    (leftBuilt : ofConfiguration (some left) workingDirectory = .ok leftProject)
    (rightBuilt : ofConfiguration (some right) workingDirectory = .ok rightProject)
    (apart : leftProject.mapping.aliases.Apart) (file : File) :
    leftProject.editFile file = rightProject.editFile file := by
  obtain ⟨leftMapped, leftDirectory⟩ := ofConfiguration_eq_ok_iff.1 leftBuilt
  obtain ⟨rightMapped, rightDirectory⟩ := ofConfiguration_eq_ok_iff.1 rightBuilt
  obtain ⟨leftMap, leftPaths, leftListed, leftBase⟩ :=
    PathMapping.ofConfiguration_eq_ok_iff.1 leftMapped
  obtain ⟨rightMap, rightPaths, rightListed, rightBase⟩ :=
    PathMapping.ofConfiguration_eq_ok_iff.1 rightMapped
  obtain ⟨sameBase, permutation⟩ := Configuration.perm_of_agrees agree leftPaths rightPaths
  have permuted : leftProject.mapping.aliases.toList.Perm rightProject.mapping.aliases.toList := by
    rw [(Aliases.ofMap_eq_ok_iff.1 leftListed).2, (Aliases.ofMap_eq_ok_iff.1 rightListed).2]
    exact permutation.map _
  have sameResults : leftProject.resolve? = rightProject.resolve? := by
    apply resolve?_eq_of_find?
    · rw [leftDirectory, rightDirectory]
    · rw [leftBase, rightBase, sameBase]
    · exact Aliases.find?_eq_of_perm permuted apart
  rw [editFile_congr sameResults]

/-- A configuration with an alias for the sources, one that keeps its specifiers,
and one with two targets, in this order. -/
def sourcesFirst : Configuration :=
  .flat ⟨some "src".toList,
    some ⟨[("@/*".toList, some ["./*".toList]), ("~".toList, none),
      ("@lib/*".toList, some ["../lib/*".toList, "lib/*".toList])], by decide +kernel⟩⟩

def sourcesLast : Configuration :=
  .flat ⟨some "src".toList,
    some ⟨[("~".toList, none), ("@lib/*".toList, some ["../lib/*".toList, "lib/*".toList]),
      ("@/*".toList, some ["./*".toList])], by decide +kernel⟩⟩

def mixedFile : File :=
  ⟨some (Path.ofText "src/a/i.ts".toList),
    .buffered (Utf8.encode "from '~'\nfrom '@lib/b'\nimport('@/c')".toList)⟩

theorem editFile_eq_of_agrees_sources :
    sourcesFirst.agrees sourcesLast = true ∧ sourcesFirst ≠ sourcesLast
      ∧ ∃ firstProject lastProject,
        ofConfiguration (some sourcesFirst) (Path.ofText "/w".toList) = .ok firstProject
          ∧ ofConfiguration (some sourcesLast) (Path.ofText "/w".toList) = .ok lastProject
          ∧ firstProject.mapping.aliases.Apart
          ∧ firstProject.editFile mixedFile
            = .ok ⟨mixedFile.path,
                .buffered (Utf8.encode "from '~'\nfrom '../../lib/b'\nimport('../c')".toList),
                ⟨[⟨1, "@lib/b".toList, "../../lib/b".toList⟩, ⟨2, "@/c".toList, "../c".toList⟩], 1⟩⟩
          ∧ firstProject.editFile mixedFile = lastProject.editFile mixedFile := by
  have agree : sourcesFirst.agrees sourcesLast = true := by decide +kernel
  have different : sourcesFirst ≠ sourcesLast := by decide +kernel
  refine ⟨agree, different, _, _, rfl, rfl, ?_, ?_, ?_⟩
  · decide +kernel
  · rfl
  · exact editFile_eq_of_agrees agree rfl rfl (by decide +kernel) mixedFile

/-- Where an alias covers another one, their order decides. -/
example :
    (ofConfiguration (some (.flat ((PathOptions.empty.addAlias "@/*".toList ["a/*".toList]).addAlias
          "@/b/*".toList ["b/*".toList]))) (Path.ofText "/w".toList)).map
        (fun project => project.resolve? (Path.ofText "i.ts".toList) "@/b/c".toList)
      = .ok (some "./a/b/c".toList)
    ∧ (ofConfiguration (some (.flat ((PathOptions.empty.addAlias "@/b/*".toList
          ["b/*".toList]).addAlias "@/*".toList ["a/*".toList]))) (Path.ofText "/w".toList)).map
        (fun project => project.resolve? (Path.ofText "i.ts".toList) "@/b/c".toList)
      = .ok (some "./b/c".toList) := by
  constructor <;> rfl

end Project

/-! ## Covered aliases -/

section

variable {map : AliasMap} {aliases : Aliases} (listed : Aliases.ofMap map = .ok aliases)
  {earlier later : Nat} (before : earlier < later) {covering : Text × Targets}
  (isCovering : map.entries[earlier]? = some covering)

include listed before isCovering

/-- Without an alias that has another one in front, a map still has aliases. -/
theorem Aliases.exists_ofMap_eraseAt : ∃ fewer, ofMap (map.eraseAt later) = .ok fewer := by
  have nonempty : (map.eraseAt later).entries ≠ [] := by
    apply List.ne_nil_of_mem
    apply List.mem_of_getElem?
    rw [OrderedMap.eraseAt, List.getElem?_eraseIdx_of_lt before, isCovering]
  have remaining : (candidates (map.eraseAt later)).Sublist (candidates map) := by
    rw [candidates_eraseAt]
    exact List.eraseIdx_sublist _ later
  obtain ⟨fewer, fewerListed, -⟩ := exists_ofMap_eq_ok nonempty
    ((nodup_stem_candidates listed).sublist (remaining.map Alias.stem))
  exact ⟨fewer, fewerListed⟩

variable {covered : Text × Targets} (isCovered : map.entries[later]? = some covered)

include isCovered

theorem Aliases.find?_eraseAt {fewer : Aliases}
    (fewerListed : ofMap (map.eraseAt later) = .ok fewer)
    (covers : withoutWildcard covering.1 <+: withoutWildcard covered.1) :
    aliases.find? = fewer.find? := by
  have whole : aliases.toList = candidates map := (ofMap_eq_ok_iff.1 listed).2
  have inFront : aliases.toList[earlier]? = some (Alias.ofTargets covering.1 covering.2) := by
    rw [whole]
    exact getElem?_candidates isCovering
  have behind : aliases.toList[later]? = some (Alias.ofTargets covered.1 covered.2) := by
    rw [whole]
    exact getElem?_candidates isCovered
  have remaining : fewer.toList = aliases.toList.eraseIdx later := by
    rw [(ofMap_eq_ok_iff.1 fewerListed).2, candidates_eraseAt, whole]
  exact find?_eq_of_covered before inFront behind remaining covers

/-- **An alias behind one that covers it is dead.**  Without it the map still has
aliases, and with every base URL and in every place the project does the same to
every file.  Whether the alias in front has a target does not matter. -/
theorem Project.editFile_eq_of_covered
    (covers : withoutWildcard covering.1 <+: withoutWildcard covered.1)
    {baseUrl : Option Text} {configuration reduced : Configuration}
    (whole : configuration.options = ⟨baseUrl, some map⟩)
    (without : reduced.options = ⟨baseUrl, some (map.eraseAt later)⟩) (workingDirectory : Path) :
    ∃ project reducedProject,
      ofConfiguration (some configuration) workingDirectory = .ok project
        ∧ ofConfiguration (some reduced) workingDirectory = .ok reducedProject
        ∧ ∀ file, project.editFile file = reducedProject.editFile file := by
  obtain ⟨fewer, fewerListed⟩ :=
    Aliases.exists_ofMap_eraseAt listed before isCovering
  have sameAliases : aliases.find? = fewer.find? :=
    Aliases.find?_eraseAt listed before isCovering isCovered fewerListed covers
  refine ⟨_, _, ofConfiguration_of_ofMap whole listed workingDirectory,
    ofConfiguration_of_ofMap without fewerListed workingDirectory, ?_⟩
  intro file
  rw [editFile_congr]
  exact resolve?_eq_of_find? rfl rfl sameAliases

end

namespace Project

/-- Aliases of which the last one lies behind one that keeps its specifiers. -/
def keptInFront : AliasMap :=
  ⟨[("@a/*".toList, some []), ("@x".toList, some ["x.ts".toList]),
    ("@a/b/*".toList, some ["b/*".toList])], by decide +kernel⟩

def keptFile : File :=
  ⟨some (Path.ofText "i.ts".toList),
    .buffered (Utf8.encode "from '@a/b/c'\nrequire('@x')".toList)⟩

theorem editFile_eq_of_covered_keptInFront :
    0 < 2 ∧ keptInFront.entries[0]? = some ("@a/*".toList, some [])
      ∧ keptInFront.entries[2]? = some ("@a/b/*".toList, some ["b/*".toList])
      ∧ withoutWildcard "@a/*".toList <+: withoutWildcard "@a/b/*".toList
      ∧ ∃ project reducedProject,
        ofConfiguration (some (.nested ⟨none, some keptInFront⟩)) (Path.ofText "/w".toList)
            = .ok project
          ∧ ofConfiguration (some (.flat ⟨none, some (keptInFront.eraseAt 2)⟩))
              (Path.ofText "/w".toList) = .ok reducedProject
          ∧ project.editFile keptFile
            = .ok ⟨keptFile.path,
                .buffered (Utf8.encode "from '@a/b/c'\nrequire('./x.ts')".toList),
                ⟨[⟨1, "@x".toList, "./x.ts".toList⟩], 1⟩⟩
          ∧ project.editFile keptFile = reducedProject.editFile keptFile := by
  have covers : withoutWildcard "@a/*".toList <+: withoutWildcard "@a/b/*".toList := by
    decide +kernel
  have whole : (Configuration.nested ⟨none, some keptInFront⟩).options
      = ⟨none, some keptInFront⟩ := rfl
  have without : (Configuration.flat ⟨none, some (keptInFront.eraseAt 2)⟩).options
      = ⟨none, some (keptInFront.eraseAt 2)⟩ := rfl
  obtain ⟨aliases, listed⟩ : ∃ aliases, Aliases.ofMap keptInFront = .ok aliases := ⟨_, rfl⟩
  obtain ⟨project, reducedProject, built, reducedBuilt, same⟩ :=
    editFile_eq_of_covered listed (by decide : 0 < 2) rfl rfl covers whole without
      (Path.ofText "/w".toList)
  refine ⟨by decide, rfl, rfl, covers, project, reducedProject, built, reducedBuilt, ?_,
    same keptFile⟩
  cases built
  rfl

end Project

end PathAlias
