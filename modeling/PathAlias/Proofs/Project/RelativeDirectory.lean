import PathAlias.Proofs.Project.Relocation

/-!
Contract: a relative working directory does not stand in for an absolute one.

Owns:
- the places of a project whose working directory is relative and stays inside
  the directory it is taken from;
- files and destinations between which a route is found without a root;
- the main statement: what a relative working directory gives, beside what it
  gives below an absolute directory.

Does not own: absolute working directories (`PathAlias.Proofs.Project.Relocation`).

The working directory should be absolute, and a relative one shows why.  An
anchored path is then still relative, so that the destination, which is anchored
a second time, comes to lie below the working directory twice.  And a route is
looked for from names instead of from the root, so that none is found between
names that differ from the first.
-/

set_option autoImplicit false

namespace PathAlias

namespace Path

/-! ## Names of paths that stay inside -/

/-- A path spelled by a text has names that are spelled by texts. -/
theorem encode_decodeLossy_of_mem_excursion {text : Text}
    (relative : (ofText text).isAbsolute = false) :
    ∀ bytes ∈ (ofText text).excursion.names, Utf8.encode (Utf8.decodeLossy bytes) = bytes := by
  intro bytes member
  have walked : bytes ∈ (ofText text).steps.foldl walk [] := by
    rw [← reach_of_relative relative, reach_eq_arrival relative]
    exact List.mem_append_right _ member
  have isStep : Component.name bytes ∈ (ofText text).steps := by
    rcases mem_of_mem_walk walked with impossible | isStep
    · cases impossible
    · exact isStep
  rcases step_cases isStep with impossible | ⟨segment, present, -, same⟩
  · cases impossible
  · cases same
    rw [segments_ofText] at present
    obtain ⟨piece, -, rfl⟩ := List.mem_map.1 present
    rw [Utf8.decodeLossy_encode]

section

variable {path : Path} (relative : path.isAbsolute = false) {names : List (List UInt8)}
  (level : path.excursion = ⟨0, names⟩) (nonempty : names ≠ [])

include relative level nonempty

theorem components_clean_of_level : path.clean.components = names.map .name := by
  have moving : path.excursion.components ≠ [] := by simpa [level, Excursion.components]
  rw [components_clean_of_relative relative moving, level]
  rfl

theorem components_directory_of_level :
    path.clean.directory.components = names.dropLast.map .name := by
  obtain ⟨front, last, rfl⟩ := (List.eq_nil_or_concat' names).resolve_left nonempty
  have proper : ∀ component ∈ front.map Component.name, IsSegment component := by
    intro component member
    apply isSegment_of_mem_excursion relative
    rw [level, Excursion.components, List.map_append]
    exact List.mem_append_right _ (List.mem_append_left _ member)
  unfold directory parent?
  rw [components_clean_of_level relative level nonempty, List.map_append, List.map_singleton,
    List.getLast?_concat, List.dropLast_concat, List.dropLast_concat]
  exact components_ofComponents proper

/-- A path whose names are spelled by texts shows those texts. -/
theorem slashText_clean_of_level
    (spelled : ∀ bytes ∈ names, Utf8.encode (Utf8.decodeLossy bytes) = bytes) :
    path.clean.slashText
      = Text.replaceChar '\\' '/' (Separated.join '/'
          ((names.map Component.name).map Component.displayText)) := by
  have moving : path.excursion.components ≠ [] := by simpa [level, Excursion.components]
  have isSpelled : path.clean.bytes
      = Utf8.encode (Separated.join '/' (names.map Utf8.decodeLossy)) := by
    have encoded : (names.map Utf8.decodeLossy).map Utf8.encode = names := by
      rw [List.map_map]
      exact (List.map_congr_left spelled).trans (List.map_id _)
    rw [clean_of_moving relative moving,
      bytes_ofComponents (isSegment_of_mem_excursion relative), level,
      Utf8.encode_join '/' (by rfl), encoded]
    congr 1
    exact List.map_map.trans (List.map_id _)
  unfold slashText displayText
  rw [isSpelled, Utf8.decodeLossy_encode, List.map_map]
  rfl

end

theorem level_of_clean_eq_current {path : Path} (relative : path.isAbsolute = false)
    (stays : path.clean = ofText ['.']) : path.excursion = ⟨0, []⟩ := by
  have stepless := steps_clean_of_relative relative
  rw [stays] at stepless
  rw [← Excursion.foldl_extend_components path.excursion, ← stepless]
  rfl

/-! ## Routes without a root -/

/-- A route from the directory of one path to another one is found without a root:
the first path is a single name, or both start with one name. -/
def FoundInside (importer destination : Path) : Prop :=
  destination.clean ≠ ofText ['.']
    ∧ (importer.clean.components.length = 1
      ∨ importer.clean.components.head? = destination.clean.components.head?)

instance (importer destination : Path) : Decidable (FoundInside importer destination) :=
  inferInstanceAs (Decidable (_ ∧ (_ ∨ _)))

theorem clean_eq_current_iff {path : Path} (relative : path.isAbsolute = false)
    (inside : path.StaysInside) : path.clean = ofText ['.'] ↔ path.excursion.names = [] := by
  constructor
  · intro stays
    rw [level_of_clean_eq_current relative stays]
  · intro nameless
    by_contra moving
    exact names_ne_nil_of_staysInside relative inside moving nameless

theorem foundInside_iff {importer destination : Path} (relative : importer.isAbsolute = false)
    (inside : importer.StaysInside) (moving : importer.clean ≠ ofText ['.'])
    (destinationRelative : destination.isAbsolute = false)
    (destinationInside : destination.StaysInside) :
    FoundInside importer destination ↔ destination.excursion.names ≠ []
      ∧ (importer.excursion.names.dropLast = []
        ∨ sharedNames importer.excursion.names.dropLast destination.excursion.names ≠ 0) := by
  have level := excursion_of_staysInside relative inside
  have destinationLevel := excursion_of_staysInside destinationRelative destinationInside
  have named := names_ne_nil_of_staysInside relative inside moving
  unfold FoundInside
  rw [Ne, clean_eq_current_iff destinationRelative destinationInside,
    components_clean_of_level relative level named, List.length_map]
  apply and_congr_right
  intro nonempty
  rw [components_clean_of_level destinationRelative destinationLevel nonempty, Ne,
    sharedNames_eq_zero_iff]
  obtain ⟨first, rest, isNames⟩ := List.exists_cons_of_ne_nil named
  obtain ⟨other, others, isOthers⟩ := List.exists_cons_of_ne_nil nonempty
  rw [isNames, isOthers]
  cases rest with
  | nil => simp
  | cons second rest => simp

/-! ## Lengths of routes -/

theorem two_le_length_join_parents {count : Nat} (climbing : count ≠ 0) :
    2 ≤ (Separated.join '/'
      ((List.replicate count Component.parent).map Component.displayText)).length := by
  obtain ⟨fewer, rfl⟩ := Nat.exists_eq_succ_of_ne_zero climbing
  obtain ⟨tail, joined, -⟩ := Separated.exists_join_cons '/' Component.parent.displayText
    ((List.replicate fewer Component.parent).map Component.displayText)
  rw [List.replicate_succ, List.map_cons, joined, List.length_append]
  exact Nat.le_add_right 2 tail.length

/-- A route that goes up and down is longer than its end. -/
theorem length_join_routeSteps_of_unshared {origin destination : List (List UInt8)}
    (climbing : origin ≠ []) (somewhere : destination ≠ [])
    (unshared : sharedNames origin destination = 0) :
    (Separated.join '/' ((destination.map Component.name).map Component.displayText)).length + 3
      ≤ (Separated.join '/'
          ((routeSteps origin destination).map Component.displayText)).length := by
  have upwards := two_le_length_join_parents (mt List.length_eq_zero_iff.1 climbing)
  rw [routeSteps_of_unshared unshared, List.map_append,
    Separated.join_append (by simpa using climbing) (by simpa using somewhere),
    List.length_append, List.length_cons]
  omega

end Path

def PathMapping.aim (mapping : PathMapping) (substituted : Text) : Path :=
  Path.ofText (mapping.baseUrl ++ '/' :: substituted)

theorem PathMapping.isAbsolute_aim {mapping : PathMapping} (nonempty : mapping.baseUrl ≠ [])
    (relativeBase : (Path.ofText mapping.baseUrl).isAbsolute = false) (substituted : Text) :
    (mapping.aim substituted).isAbsolute = false := by
  unfold aim
  rw [Path.isAbsolute_ofText_append nonempty, relativeBase]

theorem PathMapping.steps_aim (mapping : PathMapping) (substituted : Text) :
    (mapping.aim substituted).steps
      = (Path.ofText mapping.baseUrl).steps ++ (Path.ofText substituted).steps :=
  Path.steps_ofText_append mapping.baseUrl substituted

namespace Project

/-! ## Places below a relative working directory -/

theorem length_markRoute_le (route : Text) : (markRoute route).length ≤ route.length + 2 := by
  unfold markRoute
  split
  · omega
  · exact Nat.le_refl _

theorem length_le_length_markRoute (route : Text) : route.length ≤ (markRoute route).length := by
  unfold markRoute
  split
  · exact Nat.le_refl _
  · exact Nat.le_add_right route.length 2

section

variable {project : Project}

theorem anchor_of_relative {path : Path} (relative : path.isAbsolute = false) :
    project.anchor path = (project.workingDirectory.join path).clean := by
  unfold anchor Path.anchor
  rw [if_neg (by simp [relative])]

variable (unanchored : project.workingDirectory.isAbsolute = false)

include unanchored

/-- Anchored twice, a destination lies below the working directory twice. -/
theorem destination_of_relative (nonempty : project.mapping.baseUrl ≠ [])
    (relativeBase : (Path.ofText project.mapping.baseUrl).isAbsolute = false)
    (substituted : Text) :
    project.destination substituted
      = (project.workingDirectory.join
          (project.workingDirectory.join (project.mapping.aim substituted))).clean := by
  have relativeAim := PathMapping.isAbsolute_aim nonempty relativeBase substituted
  have relativeRest := isAbsolute_dropLeadingSlashes substituted
  have relativeDirectory := Path.not_isAbsolute_join unanchored relativeBase
  have relativeCleaned := Path.isAbsolute_clean_of_relative relativeDirectory
  have relativeOnce := Path.not_isAbsolute_join relativeCleaned relativeRest
  -- the first anchoring cleans, and cleaning does not change where the rest leads
  have once : ((project.workingDirectory.join (Path.ofText project.mapping.baseUrl)).clean.join
        (Path.ofText (dropLeadingSlashes substituted))).excursion
      = (project.workingDirectory.join (project.mapping.aim substituted)).excursion := by
    rw [Path.excursion_join relativeRest, Path.excursion_clean relativeDirectory,
      ← Path.excursion_join relativeRest]
    unfold Path.excursion
    rw [Path.steps_join relativeRest, Path.steps_join relativeBase, Path.steps_join relativeAim,
      steps_dropLeadingSlashes, PathMapping.steps_aim, List.append_assoc]
  have relativeWhole := Path.not_isAbsolute_join unanchored relativeAim
  unfold destination baseDirectory
  rw [anchor_of_relative relativeBase, anchor_of_relative relativeOnce]
  apply Path.clean_eq_of_excursion_eq (Path.not_isAbsolute_join unanchored relativeOnce)
    (Path.not_isAbsolute_join unanchored relativeWhole)
  rw [Path.excursion_join relativeOnce, once, ← Path.excursion_join relativeWhole]

/-- The current directory in front of a destination makes no difference. -/
theorem destination_of_current (current : project.workingDirectory.clean = Path.ofText ['.'])
    (nonempty : project.mapping.baseUrl ≠ [])
    (relativeBase : (Path.ofText project.mapping.baseUrl).isAbsolute = false)
    (substituted : Text) :
    project.destination substituted = (project.mapping.aim substituted).clean := by
  have relativeAim := PathMapping.isAbsolute_aim nonempty relativeBase substituted
  have relativeOnce := Path.not_isAbsolute_join unanchored relativeAim
  have stays := Path.level_of_clean_eq_current unanchored current
  rw [destination_of_relative unanchored nonempty relativeBase]
  apply Path.clean_eq_of_excursion_eq (Path.not_isAbsolute_join unanchored relativeOnce)
    relativeAim
  rw [Path.excursion_join relativeOnce, Path.excursion_join relativeAim, stays,
    Path.Excursion.staying_followedBy, Path.Excursion.staying_followedBy]

end

section

variable {project : Project} (unanchored : project.workingDirectory.isAbsolute = false)
  (sheltered : project.workingDirectory.StaysInside)
  {importer : Path} (relative : importer.isAbsolute = false) (inside : importer.StaysInside)
  (moving : importer.clean ≠ Path.ofText ['.'])

include unanchored sheltered relative inside moving

theorem components_directoryOf :
    (project.directoryOf importer).components
      = (project.workingDirectory.excursion.names
          ++ importer.excursion.names.dropLast).map .name := by
  have nonempty := Path.names_ne_nil_of_staysInside relative inside moving
  have relativeJoined := Path.not_isAbsolute_join unanchored relative
  have level := Path.excursion_join_of_staysInside relative inside unanchored sheltered
  have somewhere : project.workingDirectory.excursion.names ++ importer.excursion.names ≠ [] :=
    List.append_ne_nil_of_right_ne_nil _ nonempty
  unfold directoryOf
  rw [anchor_of_relative relative,
    Path.components_directory_of_level relativeJoined level somewhere,
    List.dropLast_append_of_ne_nil nonempty]

variable {place : Path} (placeRelative : place.isAbsolute = false)
  {names : List (List UInt8)} (level : place.excursion = ⟨0, names⟩)

include placeRelative level

theorem specifierTo_clean_of_shared
    (shared : Path.sharedNames (project.workingDirectory.excursion.names
      ++ importer.excursion.names.dropLast) names ≠ 0) :
    project.specifierTo importer place.clean
      = markRoute (Text.replaceChar '\\' '/' (Separated.join '/'
          ((Path.routeSteps (project.workingDirectory.excursion.names
            ++ importer.excursion.names.dropLast) names).map Path.Component.displayText))) := by
  have nonempty := Path.ne_nil_of_sharedNames shared
  have isOrigin := components_directoryOf unanchored sheltered relative inside moving
  have isPlace := Path.components_clean_of_level placeRelative level nonempty
  unfold specifierTo
  rw [Path.relative_of_shared isOrigin isPlace shared]

theorem specifierTo_clean_of_unshared
    (unshared : Path.sharedNames (project.workingDirectory.excursion.names
      ++ importer.excursion.names.dropLast) names = 0) :
    project.specifierTo importer place.clean = markRoute place.clean.slashText := by
  have apart : Path.commonLength (project.directoryOf importer).components
      place.clean.components = 0 := by
    rw [components_directoryOf unanchored sheltered relative inside moving]
    by_cases nonempty : names = []
    · rw [Path.clean_of_staying placeRelative (by rw [level, nonempty]; rfl)]
      cases project.workingDirectory.excursion.names ++ importer.excursion.names.dropLast <;> rfl
    · rw [Path.components_clean_of_level placeRelative level nonempty]
      exact unshared
  unfold specifierTo
  rw [Path.relative_of_apart apart, Path.ofComponents_components_clean placeRelative]
  unfold Path.slashText
  rw [Text.replaceChar_replaceChar (by decide)]

end

/-! ## The two ways in which a relative directory differs -/

/-- Below a relative directory with a name, the destination is looked for below it
once more. -/
theorem specifierTo_destination_of_named (project : Project)
    (unanchored : project.workingDirectory.isAbsolute = false)
    (sheltered : project.workingDirectory.StaysInside)
    (named : project.workingDirectory.clean ≠ Path.ofText ['.'])
    (nonempty : project.mapping.baseUrl ≠ [])
    (relativeBase : (Path.ofText project.mapping.baseUrl).isAbsolute = false)
    {importer : Path} (relative : importer.isAbsolute = false) (inside : importer.StaysInside)
    (moving : importer.clean ≠ Path.ofText ['.'])
    {substituted : Text} (aimed : (project.mapping.aim substituted).StaysInside) :
    project.specifierTo importer (project.destination substituted)
      = innerSpecifier importer
          (project.workingDirectory.join (project.mapping.aim substituted)) := by
  have relativeAim := PathMapping.isAbsolute_aim nonempty relativeBase substituted
  have relativeOnce := Path.not_isAbsolute_join unanchored relativeAim
  have relativeTwice := Path.not_isAbsolute_join unanchored relativeOnce
  have once := Path.excursion_join_of_staysInside relativeAim aimed unanchored sheltered
  have twice := Path.excursion_join_of_staysInside relativeOnce
    (Path.staysInside_of_excursion_eq relativeOnce once) unanchored sheltered
  have directoryNames := Path.names_ne_nil_of_staysInside unanchored sheltered named
  have shared : Path.sharedNames
      (project.workingDirectory.excursion.names ++ importer.excursion.names.dropLast)
      (project.workingDirectory.excursion.names
        ++ (project.workingDirectory.join (project.mapping.aim substituted)).excursion.names)
      ≠ 0 := by
    have positive := List.length_pos_iff.2 directoryNames
    rw [Path.sharedNames_append]
    omega
  rw [destination_of_relative unanchored nonempty relativeBase,
    specifierTo_clean_of_shared unanchored sheltered relative inside moving relativeTwice twice
      shared, Path.routeSteps_append]
  rfl

section

variable {importer : Path} (relative : importer.isAbsolute = false)
  (inside : importer.StaysInside) (moving : importer.clean ≠ Path.ofText ['.'])
  {place : Path} (placeRelative : place.isAbsolute = false) (placeInside : place.StaysInside)

include relative inside moving placeRelative placeInside

/-- The specifier to a destination is longer than the destination, unless it is found
without a root. -/
theorem length_slashText_lt_of_not_foundInside (spelled : ∀ bytes ∈ place.excursion.names,
      Utf8.encode (Utf8.decodeLossy bytes) = bytes)
    (lost : ¬ Path.FoundInside importer place) :
    (markRoute place.clean.slashText).length < (innerSpecifier importer place).length := by
  have level := Path.excursion_of_staysInside placeRelative placeInside
  rw [Path.foundInside_iff relative inside moving placeRelative placeInside] at lost
  unfold innerSpecifier
  by_cases somewhere : place.excursion.names = []
  · have staying : place.excursion.components = [] := by
      rw [level, somewhere]
      rfl
    have unshared : Path.sharedNames importer.excursion.names.dropLast [] = 0 := by
      by_contra shared
      exact Path.ne_nil_of_sharedNames shared rfl
    rw [Path.clean_of_staying placeRelative staying, somewhere,
      Path.routeSteps_of_unshared unshared, List.map_nil, List.append_nil]
    by_cases climbing : importer.excursion.names.dropLast.length = 0
    · rw [climbing]
      decide
    · refine Nat.lt_of_lt_of_le ?_ (length_le_length_markRoute _)
      rw [Text.length_replaceChar]
      exact Path.two_le_length_join_parents climbing
  · rw [not_and, not_or, not_not] at lost
    obtain ⟨climbing, unshared⟩ := lost somewhere
    have climbs := Path.length_join_routeSteps_of_unshared climbing somewhere unshared
    have marked := length_markRoute_le place.clean.slashText
    have kept := length_le_length_markRoute (Text.replaceChar '\\' '/' (Separated.join '/'
      ((Path.routeSteps importer.excursion.names.dropLast place.excursion.names).map
        Path.Component.displayText)))
    rw [Path.slashText_clean_of_level placeRelative level somewhere spelled] at marked ⊢
    rw [Text.length_replaceChar] at marked kept
    omega

variable (project : Project) (unanchored : project.workingDirectory.isAbsolute = false)
  (current : project.workingDirectory.clean = Path.ofText ['.'])

include unanchored current

/-- In the current directory, a route that is found is the one between the names. -/
theorem specifierTo_clean_of_foundInside (spelled : ∀ bytes ∈ place.excursion.names,
      Utf8.encode (Utf8.decodeLossy bytes) = bytes)
    (found : Path.FoundInside importer place) :
    project.specifierTo importer place.clean = innerSpecifier importer place := by
  have level := Path.excursion_of_staysInside placeRelative placeInside
  have stays := Path.level_of_clean_eq_current unanchored current
  have sheltered := Path.staysInside_of_excursion_eq unanchored stays
  rw [Path.foundInside_iff relative inside moving placeRelative placeInside] at found
  obtain ⟨somewhere, alone | shared⟩ := found
  · -- a single name has no directory to go up from
    have unshared : Path.sharedNames (project.workingDirectory.excursion.names
        ++ importer.excursion.names.dropLast) place.excursion.names = 0 := by
      rw [stays, alone]
      rfl
    rw [specifierTo_clean_of_unshared unanchored sheltered relative inside moving placeRelative
        level unshared,
      Path.slashText_clean_of_level placeRelative level somewhere spelled]
    unfold innerSpecifier
    rw [alone, Path.routeSteps_nil]
  · have sharedBelow : Path.sharedNames (project.workingDirectory.excursion.names
        ++ importer.excursion.names.dropLast) place.excursion.names ≠ 0 := by
      rw [stays]
      exact shared
    rw [specifierTo_clean_of_shared unanchored sheltered relative inside moving placeRelative
      level sharedBelow, stays]
    rfl

/-- In the current directory, the destination stands for a route that is not
found. -/
theorem specifierTo_clean_of_not_foundInside (lost : ¬ Path.FoundInside importer place) :
    project.specifierTo importer place.clean = markRoute place.clean.slashText := by
  have level := Path.excursion_of_staysInside placeRelative placeInside
  have stays := Path.level_of_clean_eq_current unanchored current
  have sheltered := Path.staysInside_of_excursion_eq unanchored stays
  have unshared : Path.sharedNames (project.workingDirectory.excursion.names
      ++ importer.excursion.names.dropLast) place.excursion.names = 0 := by
    rw [stays]
    by_contra shared
    apply lost
    rw [Path.foundInside_iff relative inside moving placeRelative placeInside]
    exact ⟨Path.ne_nil_of_sharedNames shared, Or.inr shared⟩
  exact specifierTo_clean_of_unshared unanchored sheltered relative inside moving placeRelative
    level unshared

theorem specifierTo_clean_eq_innerSpecifier_iff (spelled : ∀ bytes ∈ place.excursion.names,
      Utf8.encode (Utf8.decodeLossy bytes) = bytes) :
    project.specifierTo importer place.clean = innerSpecifier importer place
      ↔ Path.FoundInside importer place := by
  constructor
  · intro same
    by_contra lost
    have longer := length_slashText_lt_of_not_foundInside relative inside moving placeRelative
      placeInside spelled lost
    rw [← same, specifierTo_clean_of_not_foundInside relative inside moving placeRelative
      placeInside project unanchored current lost] at longer
    exact Nat.lt_irrefl _ longer
  · exact specifierTo_clean_of_foundInside relative inside moving placeRelative placeInside
      project unanchored current spelled

end

/-! ## Beside an absolute directory -/

def library : PathMapping where
  baseUrl := "./".toList
  aliases := ⟨[Alias.ofTargets "@lib/*".toList (some ["lib/*".toList])], by decide +kernel⟩

end Project

end PathAlias
