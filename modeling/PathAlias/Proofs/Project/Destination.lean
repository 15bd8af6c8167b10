import PathAlias.Proofs.Project.Places

/-!
Contract: a resolved specifier leads where its alias says.

Owns:
- the first alias that a specifier falls under, as a division of the aliases
  and of the specifier;
- what the mark in front of a route leaves as it is;
- the main statement: from the directory of a file, the specifier put into it
  leads to the destination of the one it replaces.

Does not own: destinations whose path is not plain text.  A route shows a
malformed name as replacement characters and a backslash as a slash, and then
leads elsewhere.
-/

set_option autoImplicit false

namespace PathAlias

/-! ## The alias in use -/

/-- A specifier is divided by the stem of the first alias it falls under, and
the alias has a target. -/
structure Aliases.Applies (aliases : Aliases) (specifier : Text)
    (used : Alias) (target rest : Text) : Prop where
  first : ∃ earlier later, aliases.toList = earlier ++ used :: later
    ∧ ∀ candidate ∈ earlier, ¬ candidate.stem <+: specifier
  divided : specifier = used.stem ++ rest
  aimed : used.target = some target

namespace PathMapping

theorem substitute?_eq_some_iff {mapping : PathMapping} {specifier substituted : Text} :
    mapping.substitute? specifier = some substituted
      ↔ ∃ used target rest, mapping.aliases.Applies specifier used target rest
        ∧ substituted = target ++ rest := by
  unfold substitute? Aliases.find?
  simp only [Option.bind_eq_bind, Option.bind_eq_some_iff, List.find?_eq_some_iff_append,
    Alias.covers, Alias.substitute?, Option.map_eq_some_iff]
  constructor
  · rintro ⟨used, ⟨covered, earlier, later, listed, passed⟩, target, aimed, rfl⟩
    obtain ⟨rest, divided⟩ := List.isPrefixOf_iff_prefix.1 covered
    refine ⟨used, target, rest, ⟨⟨earlier, later, listed, ?_⟩, divided.symm, aimed⟩, ?_⟩
    · intro candidate member isPrefix
      have notCovering := passed candidate member
      simp [List.isPrefixOf_iff_prefix.2 isPrefix] at notCovering
    · rw [← divided, List.drop_left]
  · rintro ⟨used, target, rest, ⟨⟨earlier, later, listed, passed⟩, rfl, aimed⟩, rfl⟩
    refine ⟨used, ⟨?_, earlier, later, listed, ?_⟩, target, aimed, ?_⟩
    · exact List.isPrefixOf_iff_prefix.2 (List.prefix_append used.stem rest)
    · intro candidate member
      have notPrefix := passed candidate member
      rw [← List.isPrefixOf_iff_prefix, Bool.not_eq_true] at notPrefix
      rw [notPrefix]
      rfl
    · rw [List.drop_left]

end PathMapping

namespace Project

/-! ## The mark in front of a route -/

theorem head?_markRoute (route : Text) : (markRoute route).head? = some '.' := by
  unfold markRoute
  split
  · assumption
  · rfl

theorem isAbsolute_ofText_markRoute (route : Text) :
    (Path.ofText (markRoute route)).isAbsolute = false := by
  obtain ⟨rest, marked⟩ := List.head?_eq_some_iff.1 (head?_markRoute route)
  rw [marked]
  rfl

theorem steps_ofText_markRoute (route : Text) :
    (Path.ofText (markRoute route)).steps = (Path.ofText route).steps := by
  unfold markRoute
  split
  · rfl
  · unfold Path.steps
    rw [Path.segments_ofText, Path.segments_ofText]
    simp only [Separated.split, ↓reduceIte, List.modifyHead_cons]
    rfl

/-! ## The destination -/

section

variable {project : Project} (absolute : project.workingDirectory.isAbsolute = true)

include absolute

/-- A specifier to a plain destination leads there. -/
theorem anchor_join_specifierTo (importer : Path) {names : List (List UInt8)}
    (proper : ∀ bytes ∈ names, Path.IsName bytes) (plain : (Path.ofNames names).IsPlain) :
    project.anchor ((project.directoryOf importer).join
        (Path.ofText (project.specifierTo importer (Path.ofNames names))))
      = Path.ofNames names := by
  have originProper := isName_of_mem_directoryNames project importer
  obtain ⟨withoutBackslash, walked⟩ := Path.steps_relative originProper proper plain
  unfold specifierTo
  rw [directoryOf_eq_ofNames absolute, Text.replaceChar_of_not_mem withoutBackslash,
    anchor_eq_ofNames absolute, Path.reach_join, Path.reach_ofNames _ originProper,
    Path.reach_of_relative (isAbsolute_ofText_markRoute _), steps_ofText_markRoute, walked,
    Path.foldl_walk_routeSteps]

/-- **A resolved specifier leads to its destination.**  It is the target of the
first alias that the specifier falls under, with the rest of the specifier
after it, taken from the base directory. -/
theorem anchor_join_resolved (importer : Path) {specifier replacement : Text}
    (resolved : project.resolve? importer specifier = some replacement) :
    ∃ used target rest, project.mapping.aliases.Applies specifier used target rest
      ∧ ((project.destination (target ++ rest)).IsPlain →
        project.anchor ((project.directoryOf importer).join (Path.ofText replacement))
          = project.destination (target ++ rest)) := by
  obtain ⟨substituted, isSubstituted, rfl⟩ := Option.map_eq_some_iff.1 resolved
  obtain ⟨used, target, rest, applies, rfl⟩ :=
    PathMapping.substitute?_eq_some_iff.1 isSubstituted
  refine ⟨used, target, rest, applies, ?_⟩
  unfold destination
  rw [anchor, Path.anchor_eq_ofNames absolute]
  intro plain
  have proper := Path.isName_of_mem_reach
    (Path.isName_of_mem_workingNames project.workingDirectory)
    (project.baseDirectory.join (Path.ofText (dropLeadingSlashes (target ++ rest))))
  exact anchor_join_specifierTo absolute importer proper plain

end

/-- A project whose base directory lies beside the sources, with an alias that
leaves it. -/
def besideSources : Project where
  mapping :=
    ⟨"lib".toList,
      ⟨[Alias.ofTargets "@a/b/*".toList none,
        Alias.ofTargets "@a/*".toList (some ["../shared//*".toList])], by decide +kernel⟩⟩
  workingDirectory := Path.ofText "/work/./app/".toList

theorem anchor_join_resolved_besideSources :
    besideSources.workingDirectory.isAbsolute = true
      ∧ besideSources.resolve? (Path.ofText "src/../src/pages/home.ts".toList)
          "@a/x/../.env/".toList = some "../../shared/.env".toList
      ∧ (besideSources.destination "../shared//x/../.env/".toList).IsPlain
      ∧ besideSources.anchor
          ((besideSources.directoryOf (Path.ofText "src/../src/pages/home.ts".toList)).join
            (Path.ofText "../../shared/.env".toList))
        = besideSources.destination "../shared//x/../.env/".toList := by
  have absolute : besideSources.workingDirectory.isAbsolute = true := by decide +kernel
  have resolved : besideSources.resolve? (Path.ofText "src/../src/pages/home.ts".toList)
      "@a/x/../.env/".toList = some "../../shared/.env".toList := by decide +kernel
  have plain : (besideSources.destination "../shared//x/../.env/".toList).IsPlain :=
    ⟨"/work/app/shared/.env".toList, by decide +kernel, by decide +kernel⟩
  obtain ⟨used, target, rest, applies, leads⟩ := anchor_join_resolved absolute _ resolved
  have substituted : besideSources.mapping.substitute? "@a/x/../.env/".toList
      = some (target ++ rest) :=
    PathMapping.substitute?_eq_some_iff.2 ⟨used, target, rest, applies, rfl⟩
  have isShared : besideSources.mapping.substitute? "@a/x/../.env/".toList
      = some "../shared//x/../.env/".toList := by decide +kernel
  rw [Option.some.inj (substituted.symm.trans isShared)] at leads
  exact ⟨absolute, resolved, plain, leads plain⟩

end Project

end PathAlias
