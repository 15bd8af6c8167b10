import Mathlib.Data.Set.List
import PathAlias.Proofs.Project.Destination

/-!
Contract: nothing leaves the base directory without a parent segment.

Owns:
- the segments of a text between slashes of either kind;
- the steps that a route shows, where a backslash parts a name in two;
- walks without parents, which keep the place that they set out from;
- the main statement: a specifier under an alias leads into the base directory,
  unless its substitution has a parent segment.

Does not own: base directories that are not plain text.  A route can show the
names of such a directory wrongly.

A route may climb out of the base directory and come back by name.  The names
on that way back belong to the base directory, which is plain, and the names
after it belong to the substitution.  These are the only ones that a backslash
can part.
-/

set_option autoImplicit false

namespace PathAlias

/-- The segments of a text between slashes of either kind. -/
def Text.slashSegments (text : Text) : List Text :=
  Separated.split '/' (text.replaceChar '\\' '/')

namespace Path

/-! ## Parents in a text -/

theorem ofSegment?_eq_parent_iff {segment : List UInt8} :
    Component.ofSegment? segment = some .parent ↔ segment = [dot, dot] := by
  constructor
  · intro read
    unfold Component.ofSegment? at read
    split at read
    · cases read
    · split at read
      · assumption
      · cases read
  · rintro rfl
    rfl

theorem parent_mem_steps_iff {text : Text} :
    Component.parent ∈ (ofText text).steps ↔ ['.', '.'] ∈ Separated.split '/' text := by
  unfold steps
  rw [segments_ofText, List.mem_filterMap]
  constructor
  · rintro ⟨segment, member, read⟩
    obtain ⟨piece, present, rfl⟩ := List.mem_map.1 member
    have isParent : piece = ['.', '.'] := Utf8.encode_injective (ofSegment?_eq_parent_iff.1 read)
    rwa [← isParent]
  · intro present
    exact ⟨_, List.mem_map_of_mem present, by rfl⟩

theorem steps_ofText_replaceChar (text : Text) :
    (ofText (text.replaceChar '\\' '/')).steps
      = (Separated.split '/' text).flatMap fun piece =>
          (ofText (Text.replaceChar '\\' '/' piece)).steps := by
  have replaced : text.replaceChar '\\' '/'
      = Separated.join '/' ((Separated.split '/' text).map (Text.replaceChar '\\' '/')) := by
    conv_lhs => rw [← Separated.join_split '/' text]
    exact Separated.map_join _ '/' _
  rw [replaced, steps_ofText_join, List.flatMap_map]

theorem parent_not_mem_of_slashSegments {text : Text} (parentless : ['.', '.'] ∉ text.slashSegments) :
    (∀ piece ∈ Separated.split '/' text,
        Component.parent ∉ (ofText (Text.replaceChar '\\' '/' piece)).steps)
      ∧ Component.parent ∉ (ofText text).steps := by
  have pieceless : ∀ piece ∈ Separated.split '/' text,
      Component.parent ∉ (ofText (Text.replaceChar '\\' '/' piece)).steps := by
    intro piece member isUp
    apply parentless
    unfold Text.slashSegments
    rw [← parent_mem_steps_iff, steps_ofText_replaceChar]
    exact List.mem_flatMap.2 ⟨piece, member, isUp⟩
  refine ⟨pieceless, fun isUp => ?_⟩
  exact pieceless _ (parent_mem_steps_iff.1 isUp) (parent_mem_steps_iff.2 (by decide))

/-! ## Walks without parents -/

theorem prefix_foldl_walk {steps : List Component} (parentless : Component.parent ∉ steps)
    (origin : List (List UInt8)) : origin <+: steps.foldl walk origin := by
  induction steps generalizing origin with
  | nil => exact List.prefix_rfl
  | cons step rest inductionHypothesis =>
      rw [List.mem_cons, not_or] at parentless
      refine List.IsPrefix.trans ?_ (inductionHypothesis parentless.2 (walk origin step))
      cases step with
      | root => exact List.prefix_rfl
      | current => exact List.prefix_rfl
      | parent => exact absurd rfl parentless.1
      | name bytes => exact List.prefix_append origin [bytes]

theorem exists_names_of_parent_not_mem {path : Path} (parentless : Component.parent ∉ path.steps) :
    ∃ names : List (List UInt8), path.steps = names.map .name := by
  have named : ∀ step ∈ path.steps, step ∈ Set.range Component.name := by
    intro step member
    rcases step_cases member with rfl | ⟨bytes, -, -, isName⟩
    · exact absurd member parentless
    · exact ⟨bytes, isName.symm⟩
  obtain ⟨names, isNames⟩ : path.steps ∈ Set.range (List.map Component.name) := by
    rw [Set.range_list_map]
    exact named
  exact ⟨names, isNames.symm⟩

/-! ## Shown steps -/

/-- The steps that a component shows in a route, where a backslash shows as a
slash. -/
def Component.shownSteps (component : Component) : List Component :=
  (ofText (Text.replaceChar '\\' '/' component.displayText)).steps

theorem steps_shown (steps : List Component) :
    (ofText (Text.replaceChar '\\' '/'
        (Separated.join '/' (steps.map Component.displayText)))).steps
      = steps.flatMap Component.shownSteps := by
  have shown : Text.replaceChar '\\' '/' (Separated.join '/' (steps.map Component.displayText))
      = Separated.join '/' ((steps.map Component.displayText).map (Text.replaceChar '\\' '/')) :=
    Separated.map_join _ '/' _
  rw [shown, steps_ofText_join, List.map_map, List.flatMap_map]
  rfl

theorem shownSteps_of_isPlain {names : List (List UInt8)}
    (proper : ∀ bytes ∈ names, IsName bytes) (plain : IsPlain (ofNames names))
    {bytes : List UInt8} (member : bytes ∈ names) :
    (Component.name bytes).shownSteps = [.name bytes] := by
  obtain ⟨texts, rfl, clear⟩ := exists_texts_of_isPlain proper plain
  obtain ⟨text, present, rfl⟩ := List.mem_map.1 member
  have displayed : (Component.name (Utf8.encode text)).displayText = text :=
    Utf8.decodeLossy_encode text
  unfold Component.shownSteps
  rw [displayed, Text.replaceChar_of_not_mem (clear text present).2]
  exact steps_of_isName (proper _ member)

theorem parent_not_mem_shownSteps {text : Text} (parentless : ['.', '.'] ∉ text.slashSegments)
    {bytes : List UInt8} (member : Component.name bytes ∈ (ofText text).steps) :
    Component.parent ∉ (Component.name bytes).shownSteps := by
  rcases step_cases member with impossible | ⟨segment, present, -, same⟩
  · cases impossible
  · cases same
    rw [segments_ofText] at present
    obtain ⟨piece, isPiece, rfl⟩ := List.mem_map.1 present
    have displayed : (Component.name (Utf8.encode piece)).displayText = piece :=
      Utf8.decodeLossy_encode piece
    unfold Component.shownSteps
    rw [displayed]
    exact (parent_not_mem_of_slashSegments parentless).1 piece isPiece

/-- Where a shown route leads: from the common start on, every name of the
destination shows its own steps. -/
theorem foldl_walk_shownSteps (origin destination : List (List UInt8)) :
    ((routeSteps origin destination).flatMap Component.shownSteps).foldl walk origin
      = ((destination.drop (sharedNames origin destination)).flatMap fun bytes =>
          (Component.name bytes).shownSteps).foldl walk
        (destination.take (sharedNames origin destination)) := by
  have bound := sharedNames_le_left origin destination
  have up : (List.replicate (origin.length - sharedNames origin destination)
      Component.parent).flatMap Component.shownSteps
      = List.replicate (origin.length - sharedNames origin destination) .parent := by
    rw [List.flatMap_replicate]
    exact List.flatten_replicate_singleton
  unfold routeSteps
  rw [List.flatMap_append, up, List.flatMap_map, List.foldl_append, foldl_walk_parents,
    show origin.length - (origin.length - sharedNames origin destination)
      = sharedNames origin destination by omega,
    take_sharedNames]

/-- A shown route to a place below a plain directory does not leave it, as long
as the names below show no parent. -/
theorem prefix_walk_shownSteps {base below : List (List UInt8)}
    (proper : ∀ bytes ∈ base, IsName bytes) (plain : IsPlain (ofNames base))
    (parentless : ∀ bytes ∈ below, Component.parent ∉ (Component.name bytes).shownSteps)
    (origin : List (List UInt8)) :
    base <+: ((routeSteps origin (base ++ below)).flatMap Component.shownSteps).foldl walk
      origin := by
  rw [foldl_walk_shownSteps]
  generalize sharedNames origin (base ++ below) = shared
  have wayBack : (base.drop shared).flatMap (fun bytes => (Component.name bytes).shownSteps)
      = (base.drop shared).map .name := by
    rw [List.map_eq_flatMap]
    exact List.flatMap_congr fun bytes member =>
      shownSteps_of_isPlain proper plain (List.mem_of_mem_drop member)
  rw [List.take_append, List.drop_append, List.flatMap_append, List.foldl_append, wayBack,
    foldl_walk_names]
  -- the common start ends inside the base, or it holds all of it
  have returned : base <+: base.take shared ++ below.take (shared - base.length)
      ++ base.drop shared := by
    by_cases inside : shared ≤ base.length
    · simp only [Nat.sub_eq_zero_of_le inside, List.take_zero, List.append_nil,
        List.take_append_drop, List.prefix_rfl]
    · rw [List.take_of_length_le (by omega), List.append_assoc]
      exact List.prefix_append base _
  refine returned.trans (prefix_foldl_walk ?_ _)
  intro isUp
  obtain ⟨bytes, member, shown⟩ := List.mem_flatMap.1 isUp
  exact parentless bytes (List.mem_of_mem_drop member) shown

end Path

/-! ## Inside the base directory -/

namespace Project

def baseNames (project : Project) : List (List UInt8) :=
  (Path.ofText project.mapping.baseUrl).reach project.workingNames

theorem exists_destinationNames_eq_append (project : Project) {substituted : Text}
    (parentless : Path.Component.parent ∉ (Path.ofText substituted).steps) :
    ∃ below : List (List UInt8), project.destinationNames substituted = project.baseNames ++ below
      ∧ (Path.ofText substituted).steps = below.map .name := by
  obtain ⟨below, isBelow⟩ := Path.exists_names_of_parent_not_mem parentless
  refine ⟨below, ?_, isBelow⟩
  unfold destinationNames baseNames
  rw [Path.reach_of_relative (isAbsolute_dropLeadingSlashes substituted),
    steps_dropLeadingSlashes, isBelow, Path.foldl_walk_names]

section

variable {project : Project} (absolute : project.workingDirectory.isAbsolute = true)

include absolute

theorem components_anchor (path : Path) :
    (project.anchor path).components = .root :: (path.reach project.workingNames).map .name := by
  rw [anchor_eq_ofNames absolute, Path.components_ofNames]
  exact project.isName_of_mem_reached path

/-- A specifier leads along the steps that its route shows, whether or not the
destination is plain. -/
theorem components_anchor_join_specifierTo (importer : Path) (substituted : Text) :
    (project.anchor ((project.directoryOf importer).join (Path.ofText
        (project.specifierTo importer (project.destination substituted))))).components
      = .root :: (((Path.routeSteps (project.directoryNames importer)
          (project.destinationNames substituted)).flatMap Path.Component.shownSteps).foldl
          Path.walk (project.directoryNames importer)).map .name := by
  rw [components_anchor absolute, specifierTo_destination absolute,
    directoryOf_eq_ofNames absolute, Path.reach_join,
    Path.reach_ofNames _ (isName_of_mem_directoryNames project importer),
    Path.reach_of_relative (isAbsolute_ofText_markRoute _), steps_ofText_markRoute,
    Path.steps_shown]

/-- **Nothing leaves the base directory without a parent segment.**  Where the
target and the rest of a specifier have none between slashes of either kind, the
specifier put in their place leads into the base directory. -/
theorem baseDirectory_prefix_of_resolved (importer : Path)
    {specifier replacement target rest : Text} {used : Alias}
    (applies : project.mapping.aliases.Applies specifier used target rest)
    (resolved : project.resolve? importer specifier = some replacement)
    (plain : project.baseDirectory.IsPlain)
    (parentless : ['.', '.'] ∉ (target ++ rest).slashSegments) :
    project.baseDirectory.components
      <+: (project.anchor
        ((project.directoryOf importer).join (Path.ofText replacement))).components := by
  obtain ⟨substituted, isSubstituted, rfl⟩ := Option.map_eq_some_iff.1 resolved
  have same : substituted = target ++ rest :=
    Option.some.inj (isSubstituted.symm.trans
      (PathMapping.substitute?_eq_some_iff.2 ⟨used, target, rest, applies, rfl⟩))
  subst same
  have properBase : ∀ bytes ∈ project.baseNames, Path.IsName bytes :=
    project.isName_of_mem_reached _
  have plainBase : (Path.ofNames project.baseNames).IsPlain := by
    unfold baseDirectory at plain
    rwa [anchor_eq_ofNames absolute] at plain
  obtain ⟨below, isDestination, isBelow⟩ := project.exists_destinationNames_eq_append
    (Path.parent_not_mem_of_slashSegments parentless).2
  have shownBelow : ∀ bytes ∈ below,
      Path.Component.parent ∉ (Path.Component.name bytes).shownSteps := by
    intro bytes member
    apply Path.parent_not_mem_shownSteps parentless
    rw [isBelow]
    exact List.mem_map_of_mem member
  have contained := Path.prefix_walk_shownSteps properBase plainBase shownBelow
    (project.directoryNames importer)
  rw [baseDirectory, components_anchor absolute, components_anchor_join_specifierTo absolute,
    isDestination, List.prefix_cons_inj]
  exact contained.map _

end

def slashedTarget : Project where
  mapping :=
    ⟨"packages/app".toList,
      ⟨[Alias.ofTargets "@/*".toList (some ["//src/*".toList])], by decide +kernel⟩⟩
  workingDirectory := Path.ofText "/w/./".toList

theorem baseDirectory_prefix_of_resolved_slashedTarget :
    slashedTarget.workingDirectory.isAbsolute = true
      ∧ slashedTarget.mapping.aliases.Applies "@/a\\b/.env".toList
        (Alias.ofTargets "@/*".toList (some ["//src/*".toList]))
        "//src/".toList "a\\b/.env".toList
      ∧ slashedTarget.resolve? (Path.ofText "packages/docs/index.ts".toList) "@/a\\b/.env".toList
        = some "../app/src/a/b/.env".toList
      ∧ slashedTarget.baseDirectory.IsPlain
      ∧ ['.', '.'] ∉ Text.slashSegments ("//src/".toList ++ "a\\b/.env".toList)
      ∧ slashedTarget.baseDirectory.components
        <+: (slashedTarget.anchor
          ((slashedTarget.directoryOf (Path.ofText "packages/docs/index.ts".toList)).join
            (Path.ofText "../app/src/a/b/.env".toList))).components := by
  have absolute : slashedTarget.workingDirectory.isAbsolute = true := by decide +kernel
  have applies : slashedTarget.mapping.aliases.Applies "@/a\\b/.env".toList
      (Alias.ofTargets "@/*".toList (some ["//src/*".toList]))
      "//src/".toList "a\\b/.env".toList :=
    ⟨⟨[], [], by decide +kernel, by simp⟩, by decide +kernel, by decide +kernel⟩
  have resolved : slashedTarget.resolve? (Path.ofText "packages/docs/index.ts".toList)
      "@/a\\b/.env".toList = some "../app/src/a/b/.env".toList := by decide +kernel
  have plain : slashedTarget.baseDirectory.IsPlain :=
    ⟨"/w/packages/app".toList, by decide +kernel, by decide +kernel⟩
  have parentless : ['.', '.'] ∉ Text.slashSegments ("//src/".toList ++ "a\\b/.env".toList) := by
    decide +kernel
  exact ⟨absolute, applies, resolved, plain, parentless,
    baseDirectory_prefix_of_resolved absolute _ applies resolved plain parentless⟩

end Project

end PathAlias
