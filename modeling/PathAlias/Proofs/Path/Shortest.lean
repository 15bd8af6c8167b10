import PathAlias.Proofs.Path.NormalForm
import PathAlias.Proofs.Path.Route

/-!
Contract: a route is the shortest way to its destination.

Owns:
- that a name more or less at the end of a place moves its common start with
  another place by at most one name;
- that one step brings a place at most one step closer to a destination, and a
  walk at most as many steps as it has;
- that only the route from a place to itself is empty;
- the main statement: the route between clean paths goes up, then down through
  names, leads to its destination, and no other way there has fewer steps.

Does not own: destinations that are no well-formed text, whose names a route
shows with replacement characters.
-/

set_option autoImplicit false

namespace PathAlias.Path

/-! ## One step -/

theorem commonLength_append_singleton (left right : List Component) (last : Component) :
    commonLength left right ≤ commonLength (left ++ [last]) right
      ∧ commonLength (left ++ [last]) right ≤ commonLength left right + 1 := by
  induction left generalizing right with
  | nil =>
      refine ⟨Nat.zero_le _, ?_⟩
      exact commonLength_le_left [last] right
  | cons first rest inductionHypothesis =>
      cases right with
      | nil => exact ⟨Nat.le_refl _, Nat.zero_le _⟩
      | cons other others =>
          obtain ⟨kept, bounded⟩ := inductionHypothesis others
          rw [List.cons_append]
          unfold commonLength
          split
          · exact ⟨Nat.succ_le_succ kept, Nat.succ_le_succ bounded⟩
          · exact ⟨Nat.le_refl _, Nat.zero_le _⟩

theorem sharedNames_append_singleton (names destination : List (List UInt8))
    (bytes : List UInt8) :
    sharedNames names destination ≤ sharedNames (names ++ [bytes]) destination
      ∧ sharedNames (names ++ [bytes]) destination ≤ sharedNames names destination + 1 := by
  unfold sharedNames
  rw [List.map_append]
  exact commonLength_append_singleton _ _ _

theorem length_routeSteps (origin destination : List (List UInt8)) :
    (routeSteps origin destination).length
      = (origin.length - sharedNames origin destination)
        + (destination.length - sharedNames origin destination) := by
  simp [routeSteps]

/-- Places next to each other are about as far from every destination. -/
theorem length_routeSteps_append_singleton (names destination : List (List UInt8))
    (bytes : List UInt8) :
    (routeSteps names destination).length
        ≤ (routeSteps (names ++ [bytes]) destination).length + 1
      ∧ (routeSteps (names ++ [bytes]) destination).length
        ≤ (routeSteps names destination).length + 1 := by
  obtain ⟨kept, bounded⟩ := sharedNames_append_singleton names destination bytes
  have reached := sharedNames_le_left names destination
  rw [length_routeSteps, length_routeSteps, List.length_append, List.length_singleton]
  omega

/-- One step brings the destination at most one step closer. -/
theorem length_routeSteps_le_walk (origin destination : List (List UInt8)) (step : Component) :
    (routeSteps origin destination).length
      ≤ (routeSteps (walk origin step) destination).length + 1 := by
  cases step with
  | root => exact Nat.le_succ _
  | current => exact Nat.le_succ _
  | name bytes => exact (length_routeSteps_append_singleton origin destination bytes).1
  | parent =>
      rcases List.eq_nil_or_concat' origin with rfl | ⟨front, last, rfl⟩
      · exact Nat.le_succ _
      · rw [walk, List.dropLast_concat]
        exact (length_routeSteps_append_singleton front destination last).2

/-! ## A whole walk -/

theorem routeSteps_self (origin : List (List UInt8)) : routeSteps origin origin = [] := by
  have cancelled := routeSteps_append origin [] []
  rwa [List.append_nil, routeSteps_nil] at cancelled

/-- Nothing but standing still is a route of no steps. -/
theorem routeSteps_eq_nil_iff {origin destination : List (List UInt8)} :
    routeSteps origin destination = [] ↔ origin = destination := by
  constructor
  · intro still
    have arrived := foldl_walk_routeSteps origin destination
    rwa [still] at arrived
  · rintro rfl
    exact routeSteps_self origin

/-- No walk to a place has fewer steps than the route. -/
theorem length_routeSteps_le {origin destination : List (List UInt8)} {steps : List Component}
    (arrives : steps.foldl walk origin = destination) :
    (routeSteps origin destination).length ≤ steps.length := by
  induction steps generalizing origin with
  | nil =>
      have still : routeSteps origin destination = [] := routeSteps_eq_nil_iff.2 arrives
      exact Nat.le_of_eq (congrArg List.length still)
  | cons step rest inductionHypothesis =>
      have closer := length_routeSteps_le_walk origin destination step
      have remaining := inductionHypothesis arrives
      rw [List.length_cons]
      omega

/-! ## Clean paths -/

/-- Steps joined into one path are walked one after another. -/
theorem clean_ofNames_join_ofComponents {names : List (List UInt8)}
    (proper : ∀ bytes ∈ names, IsName bytes) {steps : List Component}
    (segments : ∀ step ∈ steps, IsSegment step) :
    ((ofNames names).join (ofComponents steps)).clean = ofNames (steps.foldl walk names) := by
  rw [clean_ofNames_join proper, reach_of_relative (not_isAbsolute_ofComponents segments),
    steps_ofComponents segments]

/-- No way between clean paths has fewer parents and names than the route. -/
theorem length_routeSteps_le_of_clean {origin destination : List (List UInt8)}
    (originProper : ∀ bytes ∈ origin, IsName bytes)
    (destinationProper : ∀ bytes ∈ destination, IsName bytes) {steps : List Component}
    (segments : ∀ step ∈ steps, IsSegment step)
    (arrives : ((ofNames origin).join (ofComponents steps)).clean = ofNames destination) :
    (routeSteps origin destination).length ≤ steps.length := by
  rw [clean_ofNames_join_ofComponents originProper segments] at arrives
  apply length_routeSteps_le
  refine ofNames_injective (isName_of_mem_walk originProper ?_) destinationProper arrives
  intro bytes member
  rcases isSegment_iff.1 (segments _ member) with impossible | ⟨_, isName, same⟩
  · cases impossible
  · cases same
    exact isName

theorem relative_eq_nil_iff {origin : List (List UInt8)} {texts : List Text}
    (originProper : ∀ bytes ∈ origin, IsName bytes)
    (destinationProper : ∀ bytes ∈ texts.map Utf8.encode, IsName bytes) :
    relative (ofNames origin) (ofNames (texts.map Utf8.encode)) = []
      ↔ origin = texts.map Utf8.encode := by
  have segments := isSegment_of_mem_routeSteps origin destinationProper
  have spelled : Utf8.encode (relative (ofNames origin) (ofNames (texts.map Utf8.encode)))
      = Separated.join slash ((routeSteps origin (texts.map Utf8.encode)).map Component.bytes) :=
    (congrArg Path.bytes (ofText_relative originProper destinationProper)).trans
      (bytes_ofComponents segments)
  have nonempty : ∀ piece ∈ (routeSteps origin (texts.map Utf8.encode)).map Component.bytes,
      piece ≠ [] := by
    intro piece member
    obtain ⟨step, present, rfl⟩ := List.mem_map.1 member
    exact (segments step present).bytes_ne.1
  rw [← Utf8.encode_eq_nil_iff, spelled, Separated.join_eq_nil_iff nonempty, List.map_eq_nil_iff,
    routeSteps_eq_nil_iff]

/-- Parents and names that lead from a directory to a path, joined onto the
directory and cleaned. -/
structure Leads (origin : Path) (steps : List Component) (destination : Path) : Prop where
  upOrDown : ∀ step ∈ steps, step = .parent ∨ ∃ bytes, IsName bytes ∧ step = .name bytes
  arrives : (origin.join (ofComponents steps)).clean = destination

/-- **A route is canonical and shortest.**  Between absolute clean paths it goes
up and then down through names, is empty only where there is nowhere to go, and
leads to its destination; and whatever parents and names lead there are at least
as many. -/
theorem relative_shortest {origin destination : Path} {text : Text}
    (originAbsolute : origin.isAbsolute = true) (originClean : origin.clean = origin)
    (destinationAbsolute : destination.isAbsolute = true)
    (destinationClean : destination.clean = destination)
    (readable : Utf8.decode? destination.bytes = some text) :
    ∃ (ascents : Nat) (names : List Text),
      (∀ name ∈ names, IsName (Utf8.encode name))
        ∧ relative origin destination
          = Separated.join '/' (List.replicate ascents ['.', '.'] ++ names)
        ∧ (relative origin destination = [] ↔ origin = destination)
        ∧ (origin.join (ofText (relative origin destination))).clean = destination
        ∧ ∀ steps, Leads origin steps destination → ascents + names.length ≤ steps.length := by
  obtain ⟨originNames, originProper, rfl⟩ :=
    isNormal_iff.1 (isNormal_of_clean originAbsolute originClean)
  obtain ⟨destinationNames, destinationProper, rfl⟩ :=
    isNormal_iff.1 (isNormal_of_clean destinationAbsolute destinationClean)
  obtain ⟨texts, rfl, -⟩ := exists_texts_of_decode? destinationProper readable
  refine ⟨_, _, ?_, relative_ofTexts originProper destinationProper, ?_, ?_, ?_⟩
  · intro name member
    exact destinationProper _ (List.mem_map_of_mem (List.mem_of_mem_drop member))
  · rw [relative_eq_nil_iff originProper destinationProper]
    constructor
    · intro same
      rw [same]
    · exact ofNames_injective originProper destinationProper
  · rw [ofText_relative originProper destinationProper,
      clean_ofNames_join_ofComponents originProper
        (isSegment_of_mem_routeSteps originNames destinationProper),
      foldl_walk_routeSteps]
  · intro steps leads
    have segments : ∀ step ∈ steps, IsSegment step := fun step member =>
      isSegment_iff.2 (leads.upOrDown step member)
    have counted :=
      length_routeSteps_le_of_clean originProper destinationProper segments leads.arrives
    rw [length_routeSteps, List.length_map] at counted
    rw [List.length_drop]
    exact counted

/-- A directory with a name that stands in the other path at another depth. -/
def pagesDirectory : Path := ofText "/work/src/pages/src".toList

def hiddenPage : Path := ofText "/work/src/.../.ü\\/src".toList

theorem relative_shortest_hiddenPage :
    pagesDirectory.isAbsolute = true ∧ pagesDirectory.clean = pagesDirectory
      ∧ hiddenPage.isAbsolute = true ∧ hiddenPage.clean = hiddenPage
      ∧ Utf8.decode? hiddenPage.bytes = some "/work/src/.../.ü\\/src".toList
      ∧ relative pagesDirectory hiddenPage = "../../.../.ü\\/src".toList
      ∧ ∃ (ascents : Nat) (names : List Text),
        (∀ name ∈ names, IsName (Utf8.encode name))
          ∧ relative pagesDirectory hiddenPage
            = Separated.join '/' (List.replicate ascents ['.', '.'] ++ names)
          ∧ (relative pagesDirectory hiddenPage = [] ↔ pagesDirectory = hiddenPage)
          ∧ (pagesDirectory.join (ofText (relative pagesDirectory hiddenPage))).clean = hiddenPage
          ∧ ∀ steps, Leads pagesDirectory steps hiddenPage
            → ascents + names.length ≤ steps.length := by
  have pagesAbsolute : pagesDirectory.isAbsolute = true := by decide +kernel
  have pagesClean : pagesDirectory.clean = pagesDirectory := by decide +kernel
  have hiddenAbsolute : hiddenPage.isAbsolute = true := by decide +kernel
  have hiddenClean : hiddenPage.clean = hiddenPage := by decide +kernel
  have readable : Utf8.decode? hiddenPage.bytes = some "/work/src/.../.ü\\/src".toList := by
    decide +kernel
  exact ⟨pagesAbsolute, pagesClean, hiddenAbsolute, hiddenClean, readable, by decide +kernel,
    relative_shortest pagesAbsolute pagesClean hiddenAbsolute hiddenClean readable⟩

end PathAlias.Path
