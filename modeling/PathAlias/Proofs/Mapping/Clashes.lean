import PathAlias.Proofs.Mapping.Aliases

/-!
Contract: which maps become aliases, and what fails the others.

Owns:
- patterns that differ and have one stem;
- the places of a map where a pattern has the stem of an earlier one;
- what it takes for aliases to tabulate a map;
- the main statement: a map fails when it is empty, or at its first clash, and
  else its aliases tabulate it.

Does not own: look-up in the aliases.

The search for a clash keeps the stems that it has passed.  What it stops at has
one of them, and those before it have pairwise distinct ones, so that it is the
first place of a clash.  Whether there is any such place depends on the patterns
alone: two of them can share a stem only as a directory with its wildcard and
without.
-/

set_option autoImplicit false

namespace PathAlias

/-! ## Patterns with one stem -/

theorem withoutWildcard_append_wildcard (directory : Text) :
    withoutWildcard (directory ++ wildcard) = directory ++ ['/'] := by
  unfold withoutWildcard
  rw [if_pos (List.isSuffixOf_iff_suffix.2 (List.suffix_append directory wildcard)),
    List.dropLast_append_of_ne_nil (by decide)]
  rfl

theorem withoutWildcard_of_not_suffix {pattern : Text} (bare : ¬ wildcard <:+ pattern) :
    withoutWildcard pattern = pattern := by
  unfold withoutWildcard
  rw [if_neg (mt List.isSuffixOf_iff_suffix.1 bare)]

theorem not_wildcard_suffix_append_slash (directory : Text) :
    ¬ wildcard <:+ directory ++ ['/'] := by
  intro ended
  have last := ended.getLast (by decide)
  simp [wildcard] at last

theorem withoutWildcard_append_slash (directory : Text) :
    withoutWildcard (directory ++ ['/']) = directory ++ ['/'] :=
  withoutWildcard_of_not_suffix (not_wildcard_suffix_append_slash directory)

/-- Two patterns are one directory, without its wildcard and with it. -/
def SameDirectory (bare wild : Text) : Prop :=
  ∃ directory, bare = directory ++ ['/'] ∧ wild = directory ++ wildcard

theorem SameDirectory.withoutWildcard_eq {bare wild : Text} (same : SameDirectory bare wild) :
    withoutWildcard bare = withoutWildcard wild := by
  obtain ⟨directory, rfl, rfl⟩ := same
  rw [withoutWildcard_append_slash, withoutWildcard_append_wildcard]

/-- A pattern without a wildcard has the stem of one with it only as the same
directory. -/
theorem sameDirectory_of_withoutWildcard_eq {bare wild : Text} (isBare : ¬ wildcard <:+ bare)
    (isWild : wildcard <:+ wild) (same : withoutWildcard bare = withoutWildcard wild) :
    SameDirectory bare wild := by
  obtain ⟨directory, rfl⟩ := isWild
  rw [withoutWildcard_of_not_suffix isBare, withoutWildcard_append_wildcard] at same
  exact ⟨directory, same, rfl⟩

theorem withoutWildcard_eq_iff {left right : Text} :
    withoutWildcard left = withoutWildcard right
      ↔ left = right ∨ SameDirectory left right ∨ SameDirectory right left := by
  constructor
  · intro same
    by_cases leftWild : wildcard <:+ left
    · by_cases rightWild : wildcard <:+ right
      · left
        obtain ⟨directory, rfl⟩ := leftWild
        obtain ⟨other, rfl⟩ := rightWild
        rw [withoutWildcard_append_wildcard, withoutWildcard_append_wildcard] at same
        rw [List.append_cancel_right same]
      · exact .inr (.inr (sameDirectory_of_withoutWildcard_eq rightWild leftWild same.symm))
    · by_cases rightWild : wildcard <:+ right
      · exact .inr (.inl (sameDirectory_of_withoutWildcard_eq leftWild rightWild same))
      · left
        rwa [withoutWildcard_of_not_suffix leftWild,
          withoutWildcard_of_not_suffix rightWild] at same
  · intro shared
    rcases shared with rfl | directory | directory
    · rfl
    · exact directory.withoutWildcard_eq
    · exact directory.withoutWildcard_eq.symm

/-! ## Clashes of a map -/

namespace AliasMap

def patterns (map : AliasMap) : List Text := map.entries.map Prod.fst

def stems (map : AliasMap) : List Text := map.patterns.map withoutWildcard

/-- The pattern in a place has the stem of one before it. -/
def ClashesAt (map : AliasMap) (place : Nat) : Prop :=
  ∃ earlier stem, earlier < place ∧ map.stems[earlier]? = some stem
    ∧ map.stems[place]? = some stem

theorem stems_eq (map : AliasMap) : map.stems = (Aliases.candidates map).map Alias.stem := by
  unfold stems patterns Aliases.candidates
  rw [List.map_map, List.map_map]
  rfl

/-- Behind distinct stems, the first one that repeats one of them is the first
clash. -/
theorem clashesAt_of_stems_eq {map : AliasMap} {front back : List Text} {stem : Text}
    (isStems : map.stems = front ++ stem :: back) (distinct : front.Nodup)
    (repeated : stem ∈ front) :
    map.ClashesAt front.length ∧ ∀ sooner < front.length, ¬ map.ClashesAt sooner := by
  have inFront : ∀ place < front.length, map.stems[place]? = front[place]? := by
    intro place bound
    rw [isStems, List.getElem?_append_left bound]
  constructor
  · obtain ⟨earlier, isEarlier⟩ := List.getElem?_of_mem repeated
    have bound : earlier < front.length := (List.getElem?_eq_some_iff.1 isEarlier).1
    refine ⟨earlier, stem, bound, ?_, ?_⟩
    · rw [inFront earlier bound, isEarlier]
    · rw [isStems]
      simp
  · intro sooner bound clashing
    obtain ⟨earlier, shared, before, isEarlier, isSooner⟩ := clashing
    rw [inFront earlier (Nat.lt_trans before bound)] at isEarlier
    rw [inFront sooner bound] at isSooner
    exact List.nodup_iff_getElem?_ne_getElem?.1 distinct earlier sooner before bound
      (isEarlier.trans isSooner.symm)

/-- A map repeats a stem exactly when it has a directory twice, without the
wildcard and with it. -/
theorem not_nodup_stems_iff {map : AliasMap} :
    ¬ map.stems.Nodup
      ↔ ∃ directory, directory ++ ['/'] ∈ map.patterns
        ∧ directory ++ wildcard ∈ map.patterns := by
  have distinct : map.patterns.Nodup := map.distinctKeys
  unfold stems
  rw [List.nodup_map_iff_inj_on distinct]
  constructor
  · intro repeated
    push Not at repeated
    obtain ⟨left, isLeft, right, isRight, same, different⟩ := repeated
    rcases withoutWildcard_eq_iff.1 same with equal | ⟨directory, rfl, rfl⟩ | ⟨directory, rfl, rfl⟩
    · exact absurd equal different
    · exact ⟨directory, isLeft, isRight⟩
    · exact ⟨directory, isRight, isLeft⟩
  · intro twice injective
    obtain ⟨directory, bare, wild⟩ := twice
    have same : SameDirectory (directory ++ ['/']) (directory ++ wildcard) :=
      ⟨directory, rfl, rfl⟩
    have equal := injective _ bare _ wild same.withoutWildcard_eq
    exact absurd (List.append_cancel_left equal) (by decide)

end AliasMap

namespace Aliases

/-- The first clash, as a division of the aliases: those before it have
distinct stems, and it has one of those stems or of the given ones. -/
theorem division_of_firstClash? {earlier : List Text} {candidates : List Alias} {later : Alias}
    (clash : firstClash? earlier candidates = some later) :
    ∃ before after, candidates = before ++ later :: after
      ∧ (before.map Alias.stem).Nodup
      ∧ (∀ candidate ∈ before, candidate.stem ∉ earlier)
      ∧ (later.stem ∈ earlier ∨ later.stem ∈ before.map Alias.stem) := by
  induction candidates generalizing earlier with
  | nil => cases clash
  | cons first rest inductionHypothesis =>
      unfold firstClash? at clash
      by_cases known : first.stem ∈ earlier
      · rw [if_pos known] at clash
        cases clash
        exact ⟨[], rest, rfl, List.nodup_nil, by simp, .inl known⟩
      · rw [if_neg known] at clash
        obtain ⟨before, after, rfl, distinct, fresh, repeated⟩ := inductionHypothesis clash
        refine ⟨first :: before, after, rfl, ?_, ?_, ?_⟩
        · rw [List.map_cons, List.nodup_cons]
          refine ⟨?_, distinct⟩
          intro listed
          obtain ⟨candidate, member, same⟩ := List.mem_map.1 listed
          exact fresh candidate member (by rw [same]; exact List.mem_cons_self)
        · intro candidate member
          rcases List.mem_cons.1 member with rfl | later
          · exact known
          · exact fun isEarlier => fresh candidate later (List.mem_cons_of_mem _ isEarlier)
        · rw [List.mem_cons] at repeated
          rw [List.map_cons, List.mem_cons]
          rcases repeated with (isFirst | isEarlier) | isBefore
          · exact .inr (.inl isFirst)
          · exact .inl isEarlier
          · exact .inr (.inr isBefore)

/-- A map fails as empty exactly when it has no pattern. -/
theorem ofMap_eq_emptyPaths_iff {map : AliasMap} :
    ofMap map = .error .emptyPaths ↔ map.patterns = [] := by
  rw [AliasMap.patterns, List.map_eq_nil_iff]
  cases mapOutcome map with
  | empty nothing result => simp [nothing, result]
  | clashing later nonempty clash result => simp [nonempty, result]
  | listed aliases nonempty clashFree whole result => simp [nonempty, result]

theorem ofMap_eq_stemTaken_iff {map : AliasMap} {pattern stem : Text} :
    ofMap map = .error (.stemTaken pattern stem)
      ↔ ∃ later, firstClash? [] (candidates map) = some later
        ∧ later.pattern = pattern ∧ later.stem = stem := by
  cases mapOutcome map with
  | empty nothing result =>
      rw [candidates, nothing]
      simp [result, firstClash?]
  | clashing later nonempty clash result => simp [clash, result]
  | listed aliases nonempty clashFree whole result => simp [clashFree, result]

theorem exists_stemTaken_iff {map : AliasMap} :
    (∃ pattern stem, ofMap map = .error (.stemTaken pattern stem)) ↔ ¬ map.stems.Nodup := by
  have clashFree : firstClash? [] (candidates map) = none ↔ map.stems.Nodup := by
    rw [firstClash?_eq_none_iff, map.stems_eq]
    simp
  rw [← clashFree, ← Ne, Option.ne_none_iff_exists']
  simp [ofMap_eq_stemTaken_iff]

/-- What fails a map is the pattern in the first place of a clash. -/
theorem clashesAt_of_ofMap {map : AliasMap} {pattern stem : Text}
    (failed : ofMap map = .error (.stemTaken pattern stem)) :
    ∃ place, map.patterns[place]? = some pattern ∧ stem = withoutWildcard pattern
      ∧ map.ClashesAt place ∧ ∀ sooner < place, ¬ map.ClashesAt sooner := by
  obtain ⟨later, clash, rfl, rfl⟩ := ofMap_eq_stemTaken_iff.1 failed
  obtain ⟨before, after, divided, distinct, -, repeated⟩ := division_of_firstClash? clash
  have inFront : later.stem ∈ before.map Alias.stem := repeated.resolve_left (by simp)
  have isStems : map.stems = before.map Alias.stem ++ later.stem :: after.map Alias.stem := by
    rw [map.stems_eq, divided, List.map_append, List.map_cons]
  have first := AliasMap.clashesAt_of_stems_eq isStems distinct inFront
  rw [List.length_map] at first
  -- the alias at the clash comes from the entry in the same place
  have listed : (candidates map)[before.length]? = some later := by
    rw [divided]
    simp
  rw [candidates, List.getElem?_map, Option.map_eq_some_iff] at listed
  obtain ⟨entry, isEntry, rfl⟩ := listed
  refine ⟨before.length, ?_, rfl, first⟩
  rw [AliasMap.patterns, List.getElem?_map, isEntry]
  rfl

/-- Aliases tabulate a map: in its order one for each pattern, with the stem of
the pattern and that of its first target, if it has any, and no stem twice. -/
structure Tabulates (aliases : Aliases) (map : AliasMap) : Prop where
  sameSize : aliases.size = map.size
  inOrder : ∀ (place : Nat) (pattern : Text) (targets : Targets),
    map.entries[place]? = some (pattern, targets) →
    ∃ target, aliases.toList[place]? = some (Alias.mk pattern (withoutWildcard pattern) target)
      ∧ ∀ text, target = some text
        ↔ ∃ first others, targets = some (first :: others) ∧ text = withoutWildcard first
  distinct : (aliases.toList.map Alias.stem).Nodup

theorem tabulates_of_toList_eq {aliases : Aliases} {map : AliasMap}
    (listed : aliases.toList = candidates map) : aliases.Tabulates map := by
  refine ⟨?_, ?_, aliases.distinctStems⟩
  · unfold size OrderedMap.size
    rw [listed, candidates, List.length_map]
  · intro place pattern targets present
    refine ⟨(targets.bind List.head?).map withoutWildcard, ?_, ?_⟩
    · rw [listed, getElem?_candidates present]
      rfl
    · intro text
      cases targets with
      | none => simp
      | some listed =>
          cases listed with
          | nil => simp
          | cons first others => simp [eq_comm]

end Aliases

/-! ## The validation of a configuration -/

namespace PathMapping

/-- A configuration fails for what fails its map. -/
theorem ofConfiguration_eq_error_iff {configuration : Configuration} {map : AliasMap}
    (carried : configuration.options.paths = some map) {cause : ConfigurationError} :
    ofConfiguration (some configuration) = .error cause ↔ Aliases.ofMap map = .error cause := by
  simp [ofConfiguration, ofOptions, carried, Outcome.bind_eq_error_iff]

/-- **A configuration tabulates its map, unless the map is empty or repeats a
stem.**  It repeats one exactly when it has a directory without the wildcard and
with it, and then the failure names the first pattern that has the stem of an
earlier one. -/
theorem ofConfiguration_tabulates_or_fails {configuration : Configuration} {map : AliasMap}
    (carried : configuration.options.paths = some map) :
    (ofConfiguration (some configuration) = .error .emptyPaths ↔ map.patterns = [])
      ∧ ((∃ pattern stem, ofConfiguration (some configuration) = .error (.stemTaken pattern stem))
        ↔ ∃ directory, directory ++ ['/'] ∈ map.patterns
          ∧ directory ++ ['/', '*'] ∈ map.patterns)
      ∧ (∀ pattern stem, ofConfiguration (some configuration) = .error (.stemTaken pattern stem) →
        ∃ place, map.patterns[place]? = some pattern ∧ stem = withoutWildcard pattern
          ∧ map.ClashesAt place ∧ ∀ sooner < place, ¬ map.ClashesAt sooner)
      ∧ (map.patterns ≠ [] →
        (¬ ∃ directory, directory ++ ['/'] ∈ map.patterns
          ∧ directory ++ ['/', '*'] ∈ map.patterns) →
        ∃ mapping, ofConfiguration (some configuration) = .ok mapping
          ∧ mapping.aliases.Tabulates map) := by
  have twice : ¬ map.stems.Nodup ↔ ∃ directory, directory ++ ['/'] ∈ map.patterns
      ∧ directory ++ ['/', '*'] ∈ map.patterns := AliasMap.not_nodup_stems_iff
  simp only [ofConfiguration_eq_error_iff carried]
  refine ⟨Aliases.ofMap_eq_emptyPaths_iff, Aliases.exists_stemTaken_iff.trans twice, ?_, ?_⟩
  · intro pattern stem failed
    exact Aliases.clashesAt_of_ofMap failed
  · intro nonempty notTwice
    have distinct : map.stems.Nodup := not_not.1 (mt twice.1 notTwice)
    rw [map.stems_eq] at distinct
    obtain ⟨aliases, listed, isListed⟩ :=
      Aliases.exists_ofMap_eq_ok (mt List.map_eq_nil_iff.2 nonempty) distinct
    refine ⟨⟨normalizeBaseUrl configuration.options.baseUrl, aliases⟩, ?_,
      Aliases.tabulates_of_toList_eq isListed⟩
    exact ofConfiguration_eq_ok_iff.2 ⟨map, carried, listed, rfl⟩

def twoClashes : AliasMap :=
  ⟨[("*".toList, none), ("a/*/*".toList, some []), ("a/*".toList, some ["a/*".toList]),
    ("a/".toList, some ["b/*".toList]), ("a/*/".toList, none)], by decide +kernel⟩

theorem ofConfiguration_tabulates_or_fails_twoClashes :
    (Configuration.flat ⟨none, some twoClashes⟩).options.paths = some twoClashes
      ∧ ofConfiguration (some (.flat ⟨none, some twoClashes⟩))
        = .error (.stemTaken "a/".toList "a/".toList)
      ∧ (∃ directory, directory ++ ['/'] ∈ twoClashes.patterns
        ∧ directory ++ ['/', '*'] ∈ twoClashes.patterns)
      ∧ ∃ place, twoClashes.patterns[place]? = some "a/".toList
        ∧ twoClashes.ClashesAt place ∧ ∀ sooner < place, ¬ twoClashes.ClashesAt sooner := by
  have carried : (Configuration.flat ⟨none, some twoClashes⟩).options.paths = some twoClashes := rfl
  have failed : ofConfiguration (some (.flat ⟨none, some twoClashes⟩))
      = .error (.stemTaken "a/".toList "a/".toList) := rfl
  have exactly := ofConfiguration_tabulates_or_fails carried
  obtain ⟨place, isPattern, -, first⟩ := exactly.2.2.1 _ _ failed
  exact ⟨carried, failed, exactly.2.1.1 ⟨_, _, failed⟩, place, isPattern, first⟩

end PathMapping

end PathAlias
